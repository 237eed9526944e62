import Mathlib.Tactic

/-!
# Searching arrays

Two searches over an array addressed by position.

* `partitionPoint` – the **halving loop** over a half-open range of positions, for a predicate that
  is true on the positions below some point: it returns that point.  `partitionPointM` is the loop
  where a position may have no answer.
* `place`, `probe` – **linear probing** in an open-addressed table of slots.  `Reaches` says that a
  value is found from its home slot without crossing an empty one; placing a value establishes it
  and never destroys it, so a filled table answers for everything placed in it.
-/

namespace StorageLib

/-! ## The halving loop -/

/-- The first position of `[lo, hi)` where `p` fails, `p` being true below it. -/
def partitionPoint (p : ℕ → Bool) (lo hi : ℕ) : ℕ :=
  if lo < hi then
    if p ((lo + hi) / 2) then partitionPoint p ((lo + hi) / 2 + 1) hi
    else partitionPoint p lo ((lo + hi) / 2)
  else lo
termination_by hi - lo
decreasing_by all_goals omega

/-- The loop finds the point a predicate changes at. -/
lemma partitionPoint_eq {p : ℕ → Bool} {lo hi t : ℕ} (hlo : lo ≤ t) (hhi : t ≤ hi)
    (hp : ∀ i, lo ≤ i → i < hi → (p i = true ↔ i < t)) : partitionPoint p lo hi = t := by
  induction lo, hi using partitionPoint.induct p with
  | case1 lo hi hlt hmid ih =>
      have hm := (hp ((lo + hi) / 2) (by omega) (by omega)).mp hmid
      rw [partitionPoint, if_pos hlt, if_pos hmid]
      exact ih (by omega) hhi (fun i h1 h2 => hp i (by omega) h2)
  | case2 lo hi hlt hmid ih =>
      have hm : ¬ (lo + hi) / 2 < t :=
        fun h => hmid ((hp ((lo + hi) / 2) (by omega) (by omega)).mpr h)
      rw [partitionPoint, if_pos hlt, if_neg hmid]
      exact ih hlo (by omega) (fun i h1 h2 => hp i h1 (by omega))
  | case3 lo hi hge =>
      rw [partitionPoint, if_neg hge]
      omega

/-- A gallop from `lo`, where `p` holds: probes twice as far each, the step `2 ^ k`, to the last
place found where it holds and one behind it where it does not, or `n`. -/
def gallop (p : ℕ → Bool) (n lo k : ℕ) : ℕ × ℕ :=
  if lo + 2 ^ k < n then
    if p (lo + 2 ^ k) then gallop p n (lo + 2 ^ k) (k + 1) else (lo, lo + 2 ^ k)
  else (lo, n)
termination_by n - lo
decreasing_by
  have hpos := Nat.two_pow_pos k
  omega

/-- The gallop has the point a predicate changes at in its span. -/
lemma gallop_spec {p : ℕ → Bool} {n lo k t : ℕ} (hp : ∀ i < n, (p i = true ↔ i < t)) (hlo : lo < t)
    (ht : t ≤ n) : (gallop p n lo k).1 < t ∧ t ≤ (gallop p n lo k).2 ∧ (gallop p n lo k).2 ≤ n := by
  induction lo, k using gallop.induct p n with
  | case1 lo k hin hbelow ih =>
      rw [gallop, if_pos hin, if_pos hbelow]
      exact ih ((hp _ hin).mp hbelow)
  | case2 lo k hin hbelow =>
      rw [gallop, if_pos hin, if_neg hbelow]
      exact ⟨hlo, not_lt.mp (fun hlt => hbelow ((hp _ hin).mpr hlt)), hin.le⟩
  | case3 lo k hin =>
      rw [gallop, if_neg hin]
      exact ⟨hlo, ht, le_refl _⟩

/-- The halving loop for a predicate that a read may leave without an answer. -/
def partitionPointM (p : ℕ → Option Bool) (lo hi : ℕ) : Option ℕ :=
  if lo < hi then
    (p ((lo + hi) / 2)).bind fun b =>
      if b then partitionPointM p ((lo + hi) / 2 + 1) hi else partitionPointM p lo ((lo + hi) / 2)
  else some lo
termination_by hi - lo
decreasing_by all_goals omega

/-- It finds the point the answers change at, where every position it asks has one. -/
lemma partitionPointM_eq {p : ℕ → Option Bool} {lo hi t : ℕ} (hlo : lo ≤ t) (hhi : t ≤ hi)
    (hp : ∀ i, lo ≤ i → i < hi → p i = some (decide (i < t))) : partitionPointM p lo hi
    = some t := by
  induction hd : hi - lo using Nat.strong_induction_on generalizing lo hi with
  | _ d ih =>
      rw [partitionPointM]
      by_cases hlt : lo < hi
      · rw [if_pos hlt, hp _ (by omega) (by omega), Option.bind_some]
        by_cases hmid : (lo + hi) / 2 < t
        · rw [if_pos (decide_eq_true hmid)]
          exact ih _ (by omega) (by omega) hhi (fun i h1 h2 => hp i (by omega) h2) rfl
        · rw [if_neg (fun h => hmid (of_decide_eq_true h))]
          exact ih _ (by omega) hlo (by omega) (fun i h1 h2 => hp i h1 (by omega)) rfl
      · rw [if_neg hlt]
        congr 1
        omega

/-- A predicate that holds of a first part of a list only holds of the first so many. -/
lemma iff_lt_length_filter {α : Type} {l : List α} {p : α → Bool}
    (h : l.Pairwise (fun a b => p b = true → p a = true)) (i : ℕ) (hi : i < l.length) :
    p l[i] = true ↔ i < (l.filter p).length := by
  induction l generalizing i with
  | nil => exact absurd hi (by simp)
  | cons a l ih =>
      obtain ⟨ha, hl⟩ := List.pairwise_cons.mp h
      by_cases hpa : p a = true
      · rw [List.filter_cons_of_pos hpa, List.length_cons]
        cases i with
        | zero => simpa using hpa
        | succ i =>
            rw [List.getElem_cons_succ, ih hl i (by simpa using hi)]
            omega
      · have hnone : l.filter p = [] := by
          rw [List.filter_eq_nil_iff]
          exact fun b hb hpb => hpa (ha b hb hpb)
        rw [List.filter_cons_of_neg hpa, hnone]
        refine ⟨fun hpi => ?_, fun hlt => absurd hlt (by simp)⟩
        cases i with
        | zero => exact absurd hpi hpa
        | succ i => exact absurd (ha _ (List.getElem_mem _) hpi) hpa

/-- In a sorted list, the elements below a bound are the first so many. -/
lemma lt_iff_lt_length_filter {α : Type} [LinearOrder α] {l : List α} (h : l.Pairwise (· < ·))
    {q : α} {p : α → Bool} (hp : ∀ x, p x = true ↔ x < q) (i : ℕ) (hi : i < l.length) :
    l[i] < q ↔ i < (l.filter p).length := by
  rw [← hp, iff_lt_length_filter]
  refine h.imp ?_
  intro a b hab hb
  exact (hp a).mpr (hab.trans ((hp b).mp hb))

/-- And so are those at or below it. -/
lemma le_iff_lt_length_filter {α : Type} [LinearOrder α] {l : List α} (h : l.Pairwise (· < ·))
    {q : α} {p : α → Bool} (hp : ∀ x, p x = true ↔ x ≤ q) (i : ℕ) (hi : i < l.length) :
    l[i] ≤ q ↔ i < (l.filter p).length := by
  rw [← hp, iff_lt_length_filter]
  refine h.imp ?_
  intro a b hab hb
  exact (hp a).mpr (hab.le.trans ((hp b).mp hb))

/-! ## Linear probing -/

section Probing

variable {α β : Type} [DecidableEq α] {e : α} {next : ℕ → ℕ}

/-- `v` put into the first empty slot at or behind `s`; none after `fuel` slots.  `next` is the slot
behind a slot. -/
def place (e v : α) (next : ℕ → ℕ) : ℕ → List α → ℕ → Option (List α)
  | 0, _, _ => none
  | fuel + 1, slots, s =>
      if slots[s]? = some e then some (slots.set s v)
      else place e v next fuel slots (next s)

/-- What `f` finds at or behind `s`, before an empty slot. -/
def probe (e : α) (f : α → Option β) (next : ℕ → ℕ) (slots : List α) : ℕ → ℕ → Option β
  | 0, _ => none
  | fuel + 1, s =>
      match slots[s]? with
      | none => none
      | some x =>
          if x = e then none
          else
            match f x with
            | some b => some b
            | none => probe e f next slots fuel (next s)

/-- `v` lies at or behind `home`, with no empty slot before it. -/
def Reaches (e : α) (slots : List α) (home : ℕ) (v : α) : Prop :=
  ∃ d < slots.length, slots[(home + d) % slots.length]? = some v ∧
    ∀ d' < d, slots[(home + d') % slots.length]? ≠ some e

/-- The slot the probe stops at: the first empty one. -/
lemma exists_first_empty {slots : List α} (home : ℕ) (h : e ∈ slots) :
    ∃ d < slots.length, slots[(home + d) % slots.length]? = some e ∧
      ∀ d' < d, slots[(home + d') % slots.length]? ≠ some e := by
  obtain ⟨i, hi, hget⟩ := List.mem_iff_getElem.mp h
  have hpos : 0 < slots.length := by omega
  have hex : ∃ d, slots[(home + d) % slots.length]? = some e := by
    refine ⟨i + (slots.length - home % slots.length), ?_⟩
    have hlt := Nat.mod_lt home hpos
    have hsum : (home + (i + (slots.length - home % slots.length))) % slots.length = i := by
      have hdiv := Nat.div_add_mod home slots.length
      have : home + (i + (slots.length - home % slots.length))
          = i + slots.length * (home / slots.length + 1) := by
        rw [Nat.mul_add, mul_one]; omega
      rw [this, Nat.add_mul_mod_self_left, Nat.mod_eq_of_lt hi]
    rw [hsum, List.getElem?_eq_getElem hi, hget]
  classical
  refine ⟨Nat.find hex % slots.length, Nat.mod_lt _ hpos, ?_, ?_⟩
  · have := Nat.find_spec hex
    rwa [Nat.add_mod, Nat.mod_mod, ← Nat.add_mod]
  · intro d' hd'
    exact Nat.find_min hex (lt_of_lt_of_le hd' (Nat.mod_le _ _))

/-- Placing walks to the first empty slot. -/
lemma place_eq {v : α} {slots : List α} {fuel d : ℕ} {s : ℕ}
    (hnext : ∀ s, next s = (s + 1) % slots.length) (hs : s < slots.length) (hd : d < fuel)
    (hempty : slots[(s + d) % slots.length]? = some e)
    (hfull : ∀ d' < d, slots[(s + d') % slots.length]? ≠ some e) :
    place e v next fuel slots s = some (slots.set ((s + d) % slots.length) v) := by
  induction fuel generalizing s d with
  | zero => omega
  | succ fuel ih =>
      rw [place]
      cases d with
      | zero =>
          rw [add_zero, Nat.mod_eq_of_lt hs] at hempty ⊢
          rw [if_pos hempty]
      | succ d =>
          have h0 := hfull 0 (by omega)
          rw [add_zero, Nat.mod_eq_of_lt hs] at h0
          have hshift : ∀ k, ((s + 1) % slots.length + k) % slots.length
              = (s + (k + 1)) % slots.length := by
            intro k
            rw [Nat.mod_add_mod, Nat.add_assoc, Nat.add_comm 1 k]
          rw [if_neg h0, hnext, ih (Nat.mod_lt _ (by omega)) (by omega : d < fuel)]
          · rw [hshift]
          · rw [hshift]
            exact hempty
          · intro d' hd'
            rw [hshift]
            exact hfull (d' + 1) (by omega)

/-- **What a placement leaves**: a table of the same size, one empty slot fewer, in which the value
is reached from its home and everything reached before still is. -/
lemma place_spec {v : α} {slots : List α} {home : ℕ}
    (hnext : ∀ s, next s = (s + 1) % slots.length) (hhome : home < slots.length) (h : e ∈ slots)
    (hv : v ≠ e) :
    ∃ slots', place e v next slots.length slots home = some slots' ∧ slots'.length = slots.length ∧
      slots'.count e + 1 = slots.count e ∧ (∀ x ∈ slots', x = v ∨ x ∈ slots) ∧
      Reaches e slots' home v ∧
      ∀ home' v', v' ≠ e → Reaches e slots home' v' → Reaches e slots' home' v' := by
  obtain ⟨d, hd, hempty, hfull⟩ := exists_first_empty home h
  set at0 := (home + d) % slots.length with hat
  have hlt : at0 < slots.length := Nat.mod_lt _ (by omega)
  have hget : slots.get ⟨at0, hlt⟩ = e := by
    rw [List.getElem?_eq_getElem hlt] at hempty
    exact Option.some.inj hempty
  -- a slot other than the one written reads as before, and none is emptied
  have hother : ∀ i : ℕ, i ≠ at0 → (slots.set at0 v)[i]? = slots[i]? :=
    fun i hi => List.getElem?_set_ne (Ne.symm hi)
  have hsame : (slots.set at0 v)[at0]? = some v := List.getElem?_set_self hlt
  have hkeep : ∀ i : ℕ, slots[i]? ≠ some e → (slots.set at0 v)[i]? ≠ some e := by
    intro i hi
    by_cases heq : i = at0
    · exact absurd (heq ▸ hempty) hi
    · rwa [hother i heq]
  refine ⟨slots.set at0 v, place_eq hnext hhome hd hempty hfull, List.length_set, ?_, ?_, ?_, ?_⟩
  · rw [List.count_set hlt]
    have hmem : 0 < slots.count e := List.count_pos_iff.mpr h
    have hv' : (v == e) = false := by simpa using hv
    have hg : (slots[at0] == e) = true := by simpa using hget
    rw [hg, hv']
    simp only [if_true, Bool.false_eq_true, if_false]
    omega
  · intro x hx
    rcases List.mem_or_eq_of_mem_set hx with hx | hx
    · exact Or.inr hx
    · exact Or.inl hx
  · refine ⟨d, by rw [List.length_set]; exact hd, ?_, ?_⟩
    · rw [List.length_set]
      exact hsame
    · intro d' hd'
      rw [List.length_set]
      exact hkeep _ (hfull d' hd')
  · rintro home' v' hv' ⟨d', hd', hat', hbefore⟩
    refine ⟨d', by rw [List.length_set]; exact hd', ?_, ?_⟩
    · rw [List.length_set]
      have hne : (home' + d') % slots.length ≠ at0 := by
        intro heq
        rw [heq, hempty] at hat'
        exact hv' (Option.some.inj hat').symm
      rw [hother _ hne]
      exact hat'
    · intro k hk
      rw [List.length_set]
      exact hkeep _ (hbefore k hk)

/-- Values placed one after another, each from its home. -/
def placeAll (e : α) (next : ℕ → ℕ) : List (ℕ × α) → List α → Option (List α)
  | [], slots => some slots
  | (home, v) :: rest, slots =>
      (place e v next slots.length slots home).bind (placeAll e next rest)

/-- **A filled table**: with more empty slots than values every placement finds one, every value is
reached from its home, and nothing else is in the table. -/
lemma placeAll_spec (items : List (ℕ × α)) {slots : List α}
    (hnext : ∀ s, next s = (s + 1) % slots.length) (hhome : ∀ i ∈ items, i.1 < slots.length)
    (hv : ∀ i ∈ items, i.2 ≠ e) (hroom : items.length < slots.count e) :
    ∃ slots', placeAll e next items slots = some slots' ∧ slots'.length = slots.length ∧
      (∀ x ∈ slots', x ∈ slots ∨ ∃ i ∈ items, i.2 = x) ∧
      (∀ i ∈ items, Reaches e slots' i.1 i.2) ∧
      ∀ home' v', v' ≠ e → Reaches e slots home' v' → Reaches e slots' home' v' := by
  induction items generalizing slots with
  | nil =>
      exact ⟨slots, rfl, rfl, fun x hx => Or.inl hx, by simp, fun _ _ _ h => h⟩
  | cons i items ih =>
      obtain ⟨home, v⟩ := i
      have hmem : e ∈ slots := List.count_pos_iff.mp (by omega)
      have hv0 : v ≠ e := hv (home, v) (List.mem_cons_self ..)
      obtain ⟨slots1, hplace, hlen, hcount, hsub, hreach, hkept⟩ :=
        place_spec hnext (hhome (home, v) (List.mem_cons_self ..)) hmem hv0
      obtain ⟨slots2, hall, hlen2, hsub2, hreach2, hkept2⟩ :=
        @ih slots1 (fun s => by rw [hlen]; exact hnext s)
          (fun i hi => by rw [hlen]; exact hhome i (List.mem_cons_of_mem _ hi))
          (fun i hi => hv i (List.mem_cons_of_mem _ hi))
          (by rw [List.length_cons] at hroom; omega)
      refine ⟨slots2, by rw [placeAll, hplace]; exact hall, hlen2.trans hlen, ?_, ?_, ?_⟩
      · intro x hx
        rcases hsub2 x hx with hx | ⟨i, hi, rfl⟩
        · rcases hsub x hx with rfl | hx
          · exact Or.inr ⟨(home, x), List.mem_cons_self .., rfl⟩
          · exact Or.inl hx
        · exact Or.inr ⟨i, List.mem_cons_of_mem _ hi, rfl⟩
      · intro i hi
        rcases List.mem_cons.mp hi with rfl | hi
        · exact hkept2 _ _ hv0 hreach
        · exact hreach2 i hi
      · intro home' v' hv' hr
        exact hkept2 _ _ hv' (hkept _ _ hv' hr)

/-- A probe finds what is reached from its home, where nothing else answers. -/
lemma probe_eq_some {f : α → Option β} {slots : List α} {home : ℕ} {v : α} {b : β}
    (hnext : ∀ s, next s = (s + 1) % slots.length) (hhome : home < slots.length)
    (hr : Reaches e slots home v) (hv : v ≠ e) (hf : f v = some b)
    (hother : ∀ x ∈ slots, x ≠ e → x ≠ v → f x = none) :
    probe e f next slots slots.length home = some b := by
  obtain ⟨d, hd, hat, hbefore⟩ := hr
  -- the loop's fuel is what is left of the table past the slots already crossed
  have hwalk : ∀ fuel d s, s < slots.length → d < fuel →
      slots[(s + d) % slots.length]? = some v →
      (∀ d' < d, slots[(s + d') % slots.length]? ≠ some e) →
      probe e f next slots fuel s = some b := by
    intro fuel
    induction fuel with
    | zero => intro d s _ hd; omega
    | succ fuel ih =>
        intro d s hs hd hat hbefore
        have hget := List.getElem?_eq_getElem hs
        rw [probe, hget]
        dsimp only
        by_cases hsv : slots[s] = v
        · rw [hsv, if_neg hv, hf]
        · have hdpos : 0 < d := by
            rcases Nat.eq_zero_or_pos d with rfl | hpos
            · rw [add_zero, Nat.mod_eq_of_lt hs, hget] at hat
              exact absurd (Option.some.inj hat) hsv
            · exact hpos
          have hne : slots[s] ≠ e := by
            have := hbefore 0 hdpos
            rw [add_zero, Nat.mod_eq_of_lt hs, hget] at this
            exact fun h => this (by rw [h])
          have hshift : ∀ k, ((s + 1) % slots.length + k) % slots.length
              = (s + (k + 1)) % slots.length := by
            intro k
            rw [Nat.mod_add_mod, Nat.add_assoc, Nat.add_comm 1 k]
          rw [if_neg hne, hother _ (List.getElem_mem hs) hne hsv, hnext]
          refine ih (d - 1) _ (Nat.mod_lt _ (by omega)) (by omega) ?_ ?_
          · rw [hshift, Nat.sub_add_cancel hdpos]
            exact hat
          · intro d' hd'
            rw [hshift]
            exact hbefore (d' + 1) (by omega)
  exact hwalk slots.length d home hhome hd hat hbefore

/-- A probe finds nothing where nothing answers. -/
lemma probe_eq_none {f : α → Option β} {slots : List α} (fuel s : ℕ)
    (h : ∀ x ∈ slots, x ≠ e → f x = none) : probe e f next slots fuel s = none := by
  induction fuel generalizing s with
  | zero => rfl
  | succ fuel ih =>
      rw [probe]
      cases hget : slots[s]? with
      | none => rfl
      | some x =>
          dsimp only
          split_ifs with hx
          · rfl
          · rw [h x (List.mem_of_getElem? hget) hx]
            exact ih _

end Probing

end StorageLib

import Supdb.Lib.Delta

/-!
# Layers told apart by rank

A set of **layers**, each with some of the keys in its reach and something to say of each of those.
No layer's age is stored: a read of a key takes the layers that reach it in order of their **rank**,
and that is their age where the ranks were chosen so.

* `Ranked` – any two layers that reach one key differ in rank.
* `settle` – what a set of layers says of a key: what those that reach it say, by rank.  It is a
  fact of the set and not of the list (`settle_perm`).
* `settle_append` – layers below others, key by key, are read first; `settle_replace`, some layers
  stand in for others; `settle_eq_prod`, a list in order of rank is read as it stands.
* `StartsAt` – where the values of masking writes start: at the first, or at the last that masks;
  from there on they are all the values there are (`StartsAt.vals`).
-/

namespace StorageLib

section Layers

variable {α κ ρ M : Type} [LinearOrder ρ] [Monoid M] {reach : α → κ → Bool} {rank : α → ρ}
    {say : α → κ → M}

/-! ## Ranks -/

/-- Layers of which any two that reach one key differ in rank. -/
def Ranked (reach : α → κ → Bool) (rank : α → ρ) (l : List α) : Prop :=
  l.Pairwise (fun a b => ∀ k, reach a k = true → reach b k = true → rank a ≠ rank b)

/-- The layers that reach a key, in order of their rank. -/
def layersAt (reach : α → κ → Bool) (rank : α → ρ) (l : List α) (k : κ) : List α :=
  (l.filter (reach · k)).mergeSort (fun a b => decide (rank a ≤ rank b))

/-- What layers say of a key. -/
def settle (reach : α → κ → Bool) (rank : α → ρ) (say : α → κ → M) (l : List α) (k : κ) : M :=
  ((layersAt reach rank l k).map (say · k)).prod

section Order

variable {l m : List α} {k : κ}

omit [LinearOrder ρ] in
lemma Ranked.perm (h : Ranked reach rank l) (hp : l.Perm m) : Ranked reach rank m :=
  (hp.pairwise_iff (fun hab k ha hb => (hab k hb ha).symm)).mp h

omit [LinearOrder ρ] in
lemma Ranked.sublist (h : Ranked reach rank l) (hs : m.Sublist l) : Ranked reach rank m :=
  List.Pairwise.sublist hs h

lemma perm_layersAt : (layersAt reach rank l k).Perm (l.filter (reach · k)) :=
  List.mergeSort_perm _ _

lemma mem_layersAt {a : α} : a ∈ layersAt reach rank l k ↔ a ∈ l ∧ reach a k = true := by
  rw [perm_layersAt.mem_iff, List.mem_filter]

lemma pairwise_layersAt : (layersAt reach rank l k).Pairwise (fun a b => rank a ≤ rank b) :=
  List.pairwise_mergeSort' (Order.Preimage rank (· ≤ ·)) _

/-- **One order only**: a list of the layers that reach a key, in order of their rank, is the one
read. -/
lemma layersAt_eq (h : Ranked reach rank l) (hp : m.Perm (l.filter (reach · k)))
    (hm : m.Pairwise (fun a b => rank a ≤ rank b)) : layersAt reach rank l k = m := by
  refine (perm_layersAt.trans hp.symm).eq_of_pairwise (fun a b ha hb hab hba => ?_)
    pairwise_layersAt hm
  have hal := mem_layersAt.mp ha
  have hbl := List.mem_filter.mp (hp.mem_iff.mp hb)
  by_contra hne
  have hsymm : Std.Symm (fun a b => ∀ k, reach a k = true → reach b k = true → rank a ≠ rank b) :=
    ⟨fun _ _ hab k ha hb => (hab k hb ha).symm⟩
  exact h.forall hal.1 hbl.1 hne k hal.2 hbl.2 (le_antisymm hab hba)

/-! ## What a set of layers says -/

lemma settle_perm (h : Ranked reach rank l) (hp : l.Perm m) :
    settle reach rank say l k = settle reach rank say m k := by
  rw [settle, settle, layersAt_eq h (perm_layersAt.trans (hp.filter _).symm) pairwise_layersAt]

/-- **Layers below others**, where both reach the key, are read before them. -/
lemma settle_append (h : Ranked reach rank (l ++ m))
    (hbelow : ∀ a ∈ l, ∀ b ∈ m, reach a k = true → reach b k = true → rank a < rank b) :
    settle reach rank say (l ++ m) k = settle reach rank say l k * settle reach rank say m k := by
  have heq : layersAt reach rank (l ++ m) k = layersAt reach rank l k ++ layersAt reach rank
    m k := by
    refine layersAt_eq h ?_
      (List.pairwise_append.mpr ⟨pairwise_layersAt, pairwise_layersAt, fun a ha b hb => ?_⟩)
    · rw [List.filter_append]
      exact perm_layersAt.append perm_layersAt
    · obtain ⟨hal, hak⟩ := mem_layersAt.mp ha
      obtain ⟨hbm, hbk⟩ := mem_layersAt.mp hb
      exact (hbelow a hal b hbm hak hbk).le
  rw [settle, heq, List.map_append, List.prod_append]
  rfl

/-- Layers of which none reaches the key say nothing of it. -/
lemma settle_eq_one (hnone : ∀ a ∈ l, reach a k = false) : settle reach rank say l k = 1 := by
  have hnil : layersAt reach rank l k = [] := by
    rw [List.eq_nil_iff_forall_not_mem]
    intro a ha
    obtain ⟨hal, hak⟩ := mem_layersAt.mp ha
    rw [hnone a hal] at hak
    exact absurd hak (by simp)
  rw [settle, hnil]
  rfl

/-- A product over those with something to say. -/
lemma prod_filter_of_one (p : α → Bool) (f : α → M) (hone : ∀ a ∈ l, p a = false → f a = 1) :
    ((l.filter p).map f).prod = (l.map f).prod := by
  induction l with
  | nil => rfl
  | cons a l ih =>
      obtain ⟨ha, hl⟩ := List.forall_mem_cons.mp hone
      cases hp : p a with
      | true => rw [List.filter_cons_of_pos hp, List.map_cons, List.prod_cons, ih hl, List.map_cons, List.prod_cons]
      | false =>
          rw [List.filter_cons_of_neg (by simp [hp]), ih hl, List.map_cons, List.prod_cons, ha hp, one_mul]

/-- **Layers with nothing to say** of the key can be left out. -/
lemma settle_filter (h : Ranked reach rank l) (p : α → Bool)
    (hone : ∀ a ∈ l, p a = false → say a k = 1) :
    settle reach rank say (l.filter p) k = settle reach rank say l k := by
  have heq : layersAt reach rank (l.filter p) k = (layersAt reach rank l k).filter p := by
    refine layersAt_eq (h.sublist List.filter_sublist) ?_ (pairwise_layersAt.filter _)
    refine (perm_layersAt.filter p).trans ?_
    rw [List.filter_filter, List.filter_filter]
    simp only [Bool.and_comm, List.Perm.refl]
  rw [settle, heq, prod_filter_of_one p _ (fun a ha => hone a (mem_layersAt.mp ha).1)]
  rfl

/-- Where one layer only has something to say of the key, that is what the set says. -/
lemma settle_single {a : α} (h : Ranked reach rank l) (hnodup : l.Nodup) (ha : a ∈ l)
    (hone : ∀ b ∈ l, b ≠ a → say b k = 1) (hreach : reach a k = false → say a k = 1) :
    settle reach rank say l k = say a k := by
  classical
  have hsame : l.filter (fun b => decide (b = a)) = [a] := by
    rw [List.filter_eq, hnodup.count, if_pos ha]
    rfl
  rw [← settle_filter h (fun b => decide (b = a))
    (fun b hb hne => hone b hb (of_decide_eq_false hne)), hsame]
  cases hk : reach a k with
  | true =>
      have hone : layersAt reach rank [a] k = [a] := by
        rw [layersAt, List.filter_cons_of_pos (by exact hk), List.filter_nil, List.mergeSort_singleton]
      rw [settle, hone, List.map_singleton, List.prod_singleton]
  | false =>
      rw [hreach hk]
      exact settle_eq_one (fun b hb => by rw [List.mem_singleton.mp hb, hk])

/-- **Some layers for others**: where the two lots say the same of the key, and every layer beside
them that reaches it lies below them all or above them all, the sets say the same. -/
lemma settle_replace {i o r : List α} (hl : Ranked reach rank l) (hm : Ranked reach rank m)
    (hlp : l.Perm (i ++ r)) (hmp : m.Perm (o ++ r))
    (hsame : settle reach rank say i k = settle reach rank say o k)
    (hside : ∀ x ∈ r, reach x k = true → (∀ a ∈ i ++ o, reach a k = true → rank x < rank a) ∨
      ∀ a ∈ i ++ o, reach a k = true → rank a < rank x) :
    settle reach rank say l k = settle reach rank say m k := by
  classical
  by_cases hex : ∃ a ∈ i ++ o, reach a k = true
  · obtain ⟨a, ha, hak⟩ := hex
    -- those below, the lot, and those above
    obtain ⟨p, hp⟩ : ∃ p : α → Bool, ∀ x, p x = true ↔ ∀ a ∈ i ++ o, reach a k = true →
      rank x < rank a :=
      ⟨fun x => decide _, fun x => decide_eq_true_iff⟩
    have hsplit : ∀ lot, (lot ++ r).Perm (r.filter p ++ (lot ++ r.filter (fun x => !p x))) := by
      intro lot
      have hparts : (r.filter p ++ r.filter (fun x => !p x)).Perm r := List.filter_append_perm p r
      refine (hparts.symm.append_left lot).trans ?_
      rw [← List.append_assoc, ← List.append_assoc]
      exact List.perm_append_comm.append_right _
    have hlow : ∀ x ∈ r.filter p, ∀ a ∈ i ++ o, reach a k = true → rank x < rank a :=
      fun x hx => (hp x).mp (List.mem_filter.mp hx).2
    have hhigh : ∀ x ∈ r.filter (fun x => !p x), reach x k = true → ∀ a ∈ i ++ o, reach a k = true →
      rank a < rank x := by
      intro x hx hxk
      obtain ⟨hxr, hnot⟩ := List.mem_filter.mp hx
      refine (hside x hxr hxk).resolve_left (fun hlt => ?_)
      rw [(hp x).mpr hlt] at hnot
      exact absurd hnot (by simp)
    have hread : ∀ lot whole : List α, (∀ a ∈ lot, a ∈ i ++ o) → Ranked reach rank whole → whole.Perm (lot ++ r) →
        settle reach rank say whole k = settle reach rank say (r.filter p) k *
          (settle reach rank say lot k * settle reach rank say (r.filter (fun x => !p x)) k) := by
      intro lot whole hsub hwhole hperm
      have hranked := (hwhole.perm hperm).perm (hsplit lot)
      rw [settle_perm hwhole (hperm.trans (hsplit lot)), settle_append hranked (fun x hx y hy hxk hyk => ?_),
        settle_append (hranked.sublist (List.sublist_append_right _ _)) (fun x hx y hy hxk hyk => ?_)]
      · exact hhigh y hy hyk x (hsub x hx) hxk
      · rcases List.mem_append.mp hy with hy | hy
        · exact hlow x hx y (hsub y hy) hyk
        · exact (hlow x hx a ha hak).trans (hhigh y hy hyk a ha hak)
    rw [hread i l (fun a ha => List.mem_append_left _ ha) hl hlp,
      hread o m (fun a ha => List.mem_append_right _ ha) hm hmp, hsame]
  · have hread : ∀ lot whole : List α, (∀ a ∈ lot, a ∈ i ++ o) → Ranked reach rank whole → whole.Perm (lot ++ r) →
        settle reach rank say whole k = settle reach rank say lot k * settle reach rank say r k := by
      intro lot whole hsub hwhole hp
      rw [settle_perm hwhole hp, settle_append (hwhole.perm hp)]
      exact fun x hx y _ hxk _ => absurd ⟨x, hsub x hx, hxk⟩ hex
    rw [hread i l (fun a ha => List.mem_append_left _ ha) hl hlp,
      hread o m (fun a ha => List.mem_append_right _ ha) hm hmp, hsame]

/-- **A list in order of rank** says what its layers say one after another. -/
lemma settle_eq_prod (h : Ranked reach rank l) (hsorted : l.Pairwise (fun a b => rank a ≤ rank b))
    (hone : ∀ a ∈ l, reach a k = false → say a k = 1) : settle reach rank say l k
    = (l.map (say · k)).prod := by
  rw [settle, layersAt_eq h (List.Perm.refl _) (hsorted.filter _), prod_filter_of_one _ _ hone]

/-- Layers in a given order, where each is below those behind it that it shares a key with. -/
lemma settle_eq_prod_of_lt
    (hlt : l.Pairwise (fun a b => ∀ k, reach a k = true → reach b k = true → rank a < rank b))
    (hone : ∀ a ∈ l, reach a k = false → say a k = 1) : settle reach rank say l k
    = (l.map (say · k)).prod := by
  have hranked : Ranked reach rank l := hlt.imp (fun hab k ha hb => (hab k ha hb).ne)
  have hsorted : (l.filter (reach · k)).Pairwise (fun a b => rank a ≤ rank b) := by
    refine (hlt.filter _).imp_of_mem (fun ha hb hab => ?_)
    exact (hab k (List.mem_filter.mp ha).2 (List.mem_filter.mp hb).2).le
  rw [settle, layersAt_eq hranked (List.Perm.refl _) hsorted, prod_filter_of_one _ _ hone]

end Order

end Layers

/-! ## The last of a list -/

section Last

variable {bs : List Bool} {i : ℕ}

/-- The place of the last one that is so. -/
def lastIdx (bs : List Bool) : Option ℕ :=
  (bs.reverse.findIdx? (· = true)).map (fun i => bs.length - 1 - i)

lemma lastIdx_append (bs : List Bool) (b : Bool) :
    lastIdx (bs ++ [b]) = if b = true then some bs.length else lastIdx bs := by
  rw [lastIdx, List.reverse_append, List.reverse_singleton, List.singleton_append,
    List.findIdx?_cons, List.length_append, List.length_singleton]
  cases b with
  | true => simp
  | false =>
      simp only [Bool.false_eq_true, decide_false, if_false, lastIdx, Option.map_map]
      congr 1
      funext i
      simp only [Function.comp_apply]
      omega

/-- The last that is so, and none behind it. -/
lemma lastIdx_eq_some (hi : lastIdx bs = some i) : bs[i]? = some true ∧ ∀ j b, i < j →
    bs[j]? = some b → b = false := by
  induction bs using List.reverseRecOn with
  | nil => exact absurd hi (by simp [lastIdx])
  | append_singleton bs b ih =>
      rw [lastIdx_append] at hi
      split_ifs at hi with hb
      · rw [← Option.some.inj hi]
        refine ⟨by rw [List.getElem?_concat_length, hb], fun j c hj hc => ?_⟩
        rw [List.getElem?_eq_none (by simp; omega)] at hc
        exact absurd hc.symm (Option.some_ne_none _)
      · obtain ⟨hget, hlater⟩ := ih hi
        have hlt : i < bs.length := (List.getElem?_eq_some_iff.mp hget).1
        refine ⟨by rw [List.getElem?_append_left hlt, hget], fun j c hj hc => ?_⟩
        rcases Nat.lt_trichotomy j bs.length with hjl | rfl | hjl
        · rw [List.getElem?_append_left hjl] at hc
          exact hlater j c hj hc
        · rw [List.getElem?_concat_length] at hc
          rw [← Option.some.inj hc]
          simpa using hb
        · rw [List.getElem?_eq_none (by simp; omega)] at hc
          exact absurd hc.symm (Option.some_ne_none _)

lemma lastIdx_eq_none (h : lastIdx bs = none) : ∀ b ∈ bs, b = false := by
  rw [lastIdx, Option.map_eq_none_iff, List.findIdx?_eq_none_iff] at h
  intro b hb
  simpa using h b (List.mem_reverse.mpr hb)

end Last

/-! ## Values from the last mask on -/

section Deltas

variable {β : Type} {d : Delta β} {ds es : List (Delta β)}

/-- What is below another delta matters for its values only. -/
lemma vals_mul_congr {a b : Delta β} (h : a.vals = b.vals) (c : Delta β) :
    (a * c).vals = (b * c).vals := by
  rw [Delta.vals_mul, Delta.vals_mul, h]

/-- Where nothing behind the first masks, the values are those of all. -/
lemma vals_prod_unmasked (h : ∀ e ∈ es, e.masks = false) :
    (d :: es).prod.vals = d.vals ++ es.flatMap Delta.vals := by
  induction es generalizing d with
  | nil => simp
  | cons e es ih =>
      obtain ⟨he, hes⟩ := List.forall_mem_cons.mp h
      have hstep : (d :: e :: es).prod = ((d * e) :: es).prod := by
        rw [List.prod_cons, List.prod_cons, List.prod_cons, mul_assoc]
      rw [hstep, ih hes, Delta.vals_mul, if_neg (by simp [he]), List.append_assoc, List.flatMap_cons]

/-- **Where one masks and nothing behind it does**, the values are those from it on. -/
lemma vals_prod_from (hd : d.masks = true) (h : ∀ e ∈ es, e.masks = false) :
    (ds ++ d :: es).prod.vals = d.vals ++ es.flatMap Delta.vals := by
  have hstep : (ds ++ d :: es).prod = ((ds.prod * d) :: es).prod := by
    rw [List.prod_append, List.prod_cons, List.prod_cons, mul_assoc]
  rw [hstep, vals_prod_unmasked h, Delta.vals_mul, if_pos hd]

/-- The newest mask of two groups and of one behind them, the first group standing behind `at0`; the
first of all where there is none. -/
def newestMask (at0 : ℕ) (as bs : List Bool) (d : Bool) : ℕ :=
  if d then at0 + as.length + bs.length
  else
    match lastIdx bs with
    | some i => at0 + as.length + i
    | none =>
        match lastIdx as with
        | some i => at0 + i
        | none => 0

/-- **Where the values start**: at the first, or at one that masks, and nothing behind it masks. -/
def StartsAt (ds : List (Delta β)) (i : ℕ) : Prop :=
  ∃ older d newer, ds = older ++ d :: newer ∧ older.length = i ∧ (older = [] ∨ d.masks = true) ∧
    ∀ e ∈ newer, e.masks = false

namespace StartsAt

variable {i : ℕ} {as : List (Delta β)}

/-- **The values from the start on** are the values of all. -/
lemma vals (h : StartsAt ds i) : ds.prod.vals = (ds.drop i).flatMap Delta.vals := by
  obtain ⟨older, d, newer, rfl, rfl, hat, hnewer⟩ := h
  rw [List.drop_left, List.flatMap_cons]
  rcases hat with rfl | hmasks
  · rw [List.nil_append, vals_prod_unmasked hnewer]
  · exact vals_prod_from hmasks hnewer

lemma lt (h : StartsAt ds i) : i < ds.length := by
  obtain ⟨older, d, newer, rfl, rfl, -, -⟩ := h
  rw [List.length_append, List.length_cons]
  omega

/-- What does not mask moves no start. -/
lemma append (h : StartsAt ds i) (hes : ∀ e ∈ es, e.masks = false) : StartsAt (ds ++ es) i := by
  obtain ⟨older, d, newer, rfl, hlen, hat, hnewer⟩ := h
  refine ⟨older, d,
    newer ++ es, by rw [List.append_assoc, List.cons_append], hlen, hat, fun e he => ?_⟩
  rcases List.mem_append.mp he with he | he
  · exact hnewer e he
  · exact hes e he

/-- The newest of all masks. -/
lemma newest (ds : List (Delta β)) (hd : d.masks = true) : StartsAt (ds ++ [d]) ds.length :=
  ⟨ds, d, [], rfl, rfl, Or.inr hd, fun _ he => absurd he List.not_mem_nil⟩

/-- Nothing masks behind the first. -/
lemma unmasked (ds : List (Delta β)) (hds : ds.length ≤ 1) (hne : es ≠ [])
    (h : ∀ e ∈ es, e.masks = false) : StartsAt (ds ++ es) 0 := by
  cases ds with
  | nil =>
      obtain ⟨d, rest, rfl⟩ := List.exists_cons_of_ne_nil hne
      exact ⟨[], d, rest, rfl, rfl, Or.inl rfl, fun e he => h e (List.mem_cons_of_mem _ he)⟩
  | cons d rest =>
      have hrest : rest = [] := List.length_eq_zero_iff.mp (by simpa using hds)
      exact ⟨[], d, es, by rw [hrest]; rfl, rfl, Or.inl rfl, h⟩

/-- The last of a list that masks, behind what there was before it. -/
lemma last (ds : List (Delta β)) (hi : lastIdx (as.map Delta.masks) = some i) :
    StartsAt (ds ++ as) (ds.length + i) := by
  obtain ⟨hat, hlater⟩ := lastIdx_eq_some hi
  rw [List.getElem?_map, Option.map_eq_some_iff] at hat
  obtain ⟨d, hdi, hd⟩ := hat
  obtain ⟨hlt, rfl⟩ := List.getElem?_eq_some_iff.mp hdi
  refine ⟨ds ++ as.take i, as[i], as.drop (i + 1), ?_, ?_, Or.inr hd, fun e he => ?_⟩
  · rw [List.append_assoc, List.getElem_cons_drop, List.take_append_drop]
  · rw [List.length_append, List.length_take, Nat.min_eq_left hlt.le]
  · obtain ⟨j, hj⟩ := List.mem_iff_getElem?.mp he
    rw [List.getElem?_drop] at hj
    exact hlater (i + 1 + j) e.masks (by omega) (by rw [List.getElem?_map, hj, Option.map_some])

/-- **Of two groups and one behind them**, under at most one before them. -/
lemma three (pre : List (Delta β)) (hpre : pre.length ≤ 1) (as bs : List (Delta β)) (d : Delta β) :
    StartsAt (pre ++ (as ++ (bs ++ [d])))
    (newestMask pre.length (as.map Delta.masks) (bs.map Delta.masks) d.masks) := by
  rw [newestMask, List.length_map, List.length_map]
  split_ifs with hd
  · have hlast := newest (pre ++ (as ++ bs)) hd
    rwa [List.length_append, List.length_append, ← Nat.add_assoc, List.append_assoc,
      List.append_assoc] at hlast
  have hd' : ∀ e ∈ [d], e.masks = false :=
    fun e he => by rw [List.mem_singleton.mp he, Bool.eq_false_of_not_eq_true hd]
  cases hb : lastIdx (bs.map Delta.masks) with
  | some i =>
      have hlast := (last (pre ++ as) hb).append hd'
      rwa [List.length_append, List.append_assoc, List.append_assoc] at hlast
  | none =>
      have hbs : ∀ e ∈ bs ++ [d], e.masks = false := by
        intro e he
        rcases List.mem_append.mp he with he | he
        · exact lastIdx_eq_none hb _ (List.mem_map_of_mem he)
        · exact hd' e he
      cases ha : lastIdx (as.map Delta.masks) with
      | some i =>
          have hlast := (last pre ha).append hbs
          rwa [List.append_assoc] at hlast
      | none =>
          refine unmasked pre hpre (by simp) (fun e he => ?_)
          rcases List.mem_append.mp he with he | he
          · exact lastIdx_eq_none ha _ (List.mem_map_of_mem he)
          · exact hbs e he

end StartsAt

/-- The values of two groups and one behind them from a place on, group by group. -/
lemma flatMap_drop_three (pre : List (Delta β)) {as bs : List (Delta β)} {i : ℕ}
    (hpre : pre.length ≤ 1) (hi : i < (pre ++ (as ++ (bs ++ [d]))).length) :
    ((pre ++ (as ++ (bs ++ [d]))).drop i).flatMap Delta.vals
      = (if i = 0 then pre.flatMap Delta.vals else []) ++ ((as.drop (i - pre.length)).flatMap Delta.vals ++
          ((bs.drop (i - (pre.length + as.length))).flatMap Delta.vals ++ d.vals)) := by
  rw [List.length_append, List.length_append, List.length_append, List.length_singleton] at hi
  have hlast : i - pre.length - as.length - bs.length = 0 := by omega
  have hfirst : (pre.drop i).flatMap Delta.vals = if i = 0 then pre.flatMap Delta.vals else [] := by
    split_ifs with h0
    · rw [h0, List.drop_zero]
    · rw [List.drop_of_length_le (by omega), List.flatMap_nil]
  rw [List.drop_append, List.drop_append, List.drop_append, hlast, List.drop_zero,
    List.flatMap_append, List.flatMap_append,
    List.flatMap_append, List.flatMap_singleton, hfirst, Nat.sub_sub]

/-- The values of a list from a place on, read with each one's place at hand. -/
lemma flatMap_zipIdx_drop {α : Type} (vals : α → List β) (as : List α) (c start : ℕ) :
    as.zipIdx.flatMap (fun a => if c + a.2 < start then [] else vals a.1)
    = (as.drop (start - c)).flatMap vals := by
  have hgen : ∀ n, (as.zipIdx n).flatMap (fun a => if c + a.2 < start then [] else vals a.1)
      = (as.drop (start - (c + n))).flatMap vals := by
    induction as with
    | nil => simp
    | cons a as ih =>
        intro n
        rw [List.zipIdx_cons, List.flatMap_cons, ih (n + 1)]
        by_cases hlt : c + n < start
        · rw [if_pos hlt, List.nil_append, show start - (c + n) = start - (c + (n + 1)) +
            1 by omega, List.drop_succ_cons]
        · rw [if_neg hlt, show start - (c + n) = 0 by omega, show start - (c + (n + 1)) = 0 by omega, List.drop_zero,
            List.drop_zero, List.flatMap_cons]
  simpa using hgen 0

end Deltas

end StorageLib

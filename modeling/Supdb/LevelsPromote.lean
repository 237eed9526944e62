import Supdb.LevelsTier

/-!
# Promotions

Pieces whose keys lie one behind the other, and behind a partition's, are partitions already but for
their names.  A promotion gives each the fence from its first key to the next one's, and copies
nothing.  A promoted piece goes below every piece, so a range is promoted only where every piece
over it goes at once; and since no key stands in two of them, what each says is all the range's
segments said.

* `Chained` – pieces with bounds that keep them apart; `chainBounds_chained`, what the code's walk
  over the first keys finds.
* **`Promotes`** – renames that cut one range exactly, each key of a segment inside its new fence,
  and leave no piece over it.
* `Settled.promote`, `saysOf_promote` – they keep the set settled and what it says.
* `promoteRange_promotes`, `promoteUnpartitioned_promotes` – both promotions are such.
-/

namespace Supdb

open StorageLib

/-! ## Chains -/

/-- Pieces and their bounds: each one's keys from its bound on and below the next, the last one's
below the end. -/
def Chained (hi : Option Bytes) : List Seg → List Bytes → Prop
  | [s], [b] => (∀ k ∈ s.keys, b ≤ k) ∧ ∀ x ∈ hi, b < x ∧ ∀ k ∈ s.keys, k < x
  | s :: t :: ss, b :: c :: bs =>
      ((∀ k ∈ s.keys, b ≤ k) ∧ b < c ∧ ∀ k ∈ s.keys, k < c) ∧ Chained hi (t :: ss) (c :: bs)
  | _, _ => False

section Chains

variable {hi : Option Bytes} {range : Fence} {ss : List Seg} {bs : List Bytes}

/-- **The fences of a chain** cut what is behind its first bound, and each holds its piece's keys.
-/
lemma Chained.fences {b : Bytes} (h : Chained hi ss (b :: bs)) :
    Spans b hi (Levels.chainFences hi (b :: bs)) ∧ (∀ f ∈ Levels.chainFences hi (b :: bs), Wide f) ∧
      (Levels.chainFences hi (b :: bs)).length = ss.length ∧
        ∀ r ∈ ss.zip (Levels.chainFences hi (b :: bs)), ∀ k ∈ r.1.keys, r.2.Holds k := by
  induction bs generalizing b ss with
  | nil =>
      cases ss with
      | nil => exact absurd h id
      | cons s ss =>
          cases ss with
          | cons t ss => exact absurd h id
          | nil =>
              obtain ⟨hlow, hend⟩ := h
              refine ⟨rfl, fun f hf => ?_, rfl, fun r hr k hk => ?_⟩
              · rw [List.mem_singleton.mp hf]
                exact fun x hx => (hend x hx).1
              · rw [Levels.chainFences, List.zip_cons_cons, List.zip_nil_right, List.mem_singleton] at hr
                rw [hr] at hk ⊢
                exact ⟨hlow k hk, fun x hx => (hend x hx).2 k hk⟩
  | cons c bs ih =>
      cases ss with
      | nil => exact absurd h id
      | cons s ss =>
          cases ss with
          | nil => exact absurd h id
          | cons t ss =>
              obtain ⟨⟨hlow, hbc, hbelow⟩, hrest⟩ := h
              obtain ⟨hspans, hwide, hlen, hkeys⟩ := ih hrest
              rw [Levels.chainFences]
              refine ⟨hspans.cons, fun f hf => ?_, by rw [List.length_cons, hlen]; rfl,
                fun r hr k hk => ?_⟩
              · rcases List.mem_cons.mp hf with rfl | hf
                · exact fun x hx => by rwa [← Option.some.inj hx]
                · exact hwide f hf
              · rw [List.zip_cons_cons] at hr
                rcases List.mem_cons.mp hr with rfl | hr
                · exact ⟨hlow k hk, fun x hx => by rw [← Option.some.inj hx]; exact hbelow k hk⟩
                · exact hkeys r hr k hk

/-- A chain may begin lower. -/
lemma Chained.lower {a b : Bytes} (hab : a ≤ b) (h : Chained hi ss (b :: bs)) :
    Chained hi ss (a :: bs) := by
  cases ss with
  | nil => exact absurd h id
  | cons s ss =>
      cases ss with
      | nil =>
          cases bs with
          | nil => exact ⟨fun k hk => hab.trans (h.1 k hk), fun x hx => ⟨hab.trans_lt (h.2 x hx).1, (h.2 x hx).2⟩⟩
          | cons c bs => exact absurd h id
      | cons t ss =>
          cases bs with
          | nil => exact absurd h id
          | cons c bs =>
              obtain ⟨⟨hlow, hbc, hbelow⟩, hrest⟩ := h
              exact ⟨⟨fun k hk => hab.trans (hlow k hk), hab.trans_lt hbc, hbelow⟩, hrest⟩

/-- Of increasing keys the first is the least. -/
lemma head_le {ks : List Bytes} {a : Bytes} (hsorted : ks.Pairwise (· < ·))
    (ha : ks.head? = some a) : ∀ k ∈ ks, a ≤ k := by
  cases ks with
  | nil => exact fun k hk => absurd hk List.not_mem_nil
  | cons b ks =>
      rw [List.head?_cons, Option.some.injEq] at ha
      subst ha
      intro k hk
      rcases List.mem_cons.mp hk with rfl | hk
      · exact le_refl _
      · exact ((List.pairwise_cons.mp hsorted).1 k hk).le

/-- And the last the greatest. -/
lemma le_getLast {ks : List Bytes} {a : Bytes} (hsorted : ks.Pairwise (· < ·))
    (ha : ks.getLast? = some a) : ∀ k ∈ ks, k ≤ a := by
  induction ks using List.reverseRecOn with
  | nil => exact fun k hk => absurd hk List.not_mem_nil
  | append_singleton ks b _ =>
      rw [List.getLast?_concat, Option.some.injEq] at ha
      subst ha
      intro k hk
      rcases List.mem_append.mp hk with hk | hk
      · exact ((List.pairwise_append.mp hsorted).2.2 k hk b (List.mem_singleton_self _)).le
      · exact (List.mem_singleton.mp hk).le

/-- **What the walk over the first keys finds** is a chain, inside the range and behind what it
started from. -/
lemma chainBounds_chained (hsorted : ∀ s ∈ ss, s.keys.Pairwise (· < ·))
    (hend : ∀ s ∈ ss, ∀ k ∈ s.keys, ∀ x ∈ range.2, k < x) (hne : ss ≠ []) {floor : Option Bytes}
    (h : Levels.chainBounds range floor ss = some bs) :
    ∃ b rest, bs = b :: rest ∧ Chained range.2 ss bs ∧ (∀ pl ∈ floor, pl < b) ∧ range.1 < b := by
  induction ss generalizing floor bs with
  | nil => exact absurd rfl hne
  | cons s ss ih =>
      obtain ⟨hs, hss⟩ := List.forall_mem_cons.mp hsorted
      obtain ⟨hends, hendss⟩ := List.forall_mem_cons.mp hend
      rw [Levels.chainBounds] at h
      simp only [Option.bind_eq_bind, Option.bind_eq_some_iff] at h
      obtain ⟨first, hfirst, h⟩ := h
      by_cases hfloor : floor.any (fun pl => decide (fenceLo first ≤ pl)) = true
      · rw [if_pos hfloor] at h
        exact absurd h.symm (Option.some_ne_none _)
      rw [if_neg hfloor] at h
      by_cases hunder : (if range.1 = [] then fenceLo first = [] else fenceLo first ≤ range.1) ∨
          range.2.any (fun x => decide (x ≤ fenceLo first)) = true
      · rw [if_pos hunder] at h
        exact absurd h.symm (Option.some_ne_none _)
      rw [if_neg hunder, Option.bind_eq_some_iff] at h
      obtain ⟨rest, hrest, h⟩ := h
      have hbs : bs = fenceLo first :: rest := (Option.some.inj h).symm
      obtain ⟨hlo, hhi⟩ := not_or.mp hunder
      have hlow : ∀ k ∈ s.keys, fenceLo first ≤ k :=
        fun k hk => (take_le FENCE_MAX first).trans (head_le hs hfirst k hk)
      have hfloor' : ∀ pl ∈ floor, pl < fenceLo first := by
        intro pl hpl
        rw [Option.any_eq_true, not_exists] at hfloor
        exact not_le.mp (fun hle => hfloor pl ⟨hpl, decide_eq_true hle⟩)
      have hin : ∀ x ∈ range.2, fenceLo first < x := by
        intro x hx
        rw [Option.any_eq_true, not_exists] at hhi
        exact not_le.mp (fun hle => hhi x ⟨hx, decide_eq_true hle⟩)
      have hlt : range.1 < fenceLo first := by
        by_cases hopen : range.1 = []
        · rw [if_pos hopen] at hlo
          rw [hopen]
          exact lt_of_le_of_ne (nil_le _) (Ne.symm hlo)
        · rw [if_neg hopen] at hlo
          exact not_le.mp hlo
      refine ⟨fenceLo first, rest, hbs, ?_, hfloor', hlt⟩
      rw [hbs]
      cases ss with
      | nil =>
          rw [Levels.chainBounds] at hrest
          rw [← Option.some.inj hrest]
          exact ⟨hlow, fun x hx => ⟨hin x hx, fun k hk => hends k hk x hx⟩⟩
      | cons t ss =>
          obtain ⟨c, rest', hrestEq, hchained, hlast, -⟩ := ih hss hendss (List.cons_ne_nil _ _) hrest
          rw [hrestEq] at hchained ⊢
          have hne' : s.keys ≠ [] := by
            intro hnil
            rw [hnil] at hfirst
            exact absurd hfirst.symm (Option.some_ne_none _)
          have hget := List.getLast?_eq_some_getLast hne'
          have hbelow : ∀ k ∈ s.keys, k < c := fun k hk => (le_getLast hs hget k hk).trans_lt (hlast _ hget)
          have hmem := List.mem_of_mem_head? hfirst
          exact ⟨⟨hlow, (hlow first hmem).trans_lt (hbelow first hmem), hbelow⟩, hchained⟩

/-- The pieces of a chain are those asked for, in another order. -/
lemma promotionChain_eq {floor : Option Bytes} {pieces ps : List Seg}
    (h : Levels.promotionChain range floor pieces = some (ps, bs)) :
    ps.Perm pieces ∧ ps ≠ [] ∧ Levels.chainBounds range floor ps = some bs := by
  rw [Levels.promotionChain] at h
  split_ifs at h with hno
  rw [Option.map_eq_some_iff] at h
  obtain ⟨bounds, hbounds, heq⟩ := h
  rw [Prod.mk.injEq] at heq
  obtain ⟨rfl, rfl⟩ := heq
  have hperm :=
    List.mergeSort_perm pieces (fun a b => decide (a.keys.head?.getD [] ≤ b.keys.head?.getD []))
  refine ⟨hperm, fun hnil => ?_, hbounds⟩
  rw [hnil] at hperm
  exact (not_or.mp hno).1 hperm.symm.eq_nil

end Chains

/-! ## Renames -/

/-- **Renames that promote a range**: live segments that hold each of its keys once, among them its
partition and every piece over it, each with a fence that its keys lie in and that shares no key
with another. -/
structure Promotes (live : List Seg) (range : Fence) (renames : List (Seg × Fence)) : Prop where
  sub : ∀ r ∈ renames, r.1 ∈ live
  nodup : (renames.map Prod.fst).Nodup
  isRange : IsRange live range
  wide : ∀ r ∈ renames, Wide r.2
  apart : renames.Pairwise (fun a b => RangesApart a.2 b.2)
  cover : ∀ k, (∃ r ∈ renames, r.2.Holds k) ↔ range.Holds k
  inside : ∀ r ∈ renames, ∀ k ∈ r.1.keys, r.2.Holds k
  parts : ∀ p ∈ live, p.isPart = true → ((∃ r ∈ renames, r.1 = p) ↔ p.fence = range)
  clear : ∀ s ∈ live, s.isPart = false → (∀ r ∈ renames, r.1 ≠ s) → RangesApart s.fence range

namespace Seg

variable {s : Seg} {f : Fence} {k : Bytes}

@[simp] lemma fence_renamed : (s.renamed f).fence = f := rfl

@[simp] lemma isPart_renamed : (s.renamed f).isPart = true := rfl

@[simp] lemma id_renamed : (s.renamed f).id = s.id := rfl

@[simp] lemma keys_renamed : (s.renamed f).keys = s.keys := rfl

@[simp] lemma delta_renamed : (s.renamed f).delta k = s.delta k := rfl

end Seg

section Promote

variable {live queue : List Seg} {range f : Fence} {renames : List (Seg × Fence)} {k : Bytes}

/-- Live segments have ids of their own. -/
def IdsApart (live : List Seg) : Prop := ∀ s ∈ live, ∀ t ∈ live, s.id = t.id → s = t

/-- And so names. -/
lemma IdsApart.eq_of_name (hids : IdsApart live) {s t : Seg} (hs : s ∈ live) (ht : t ∈ live)
    (hname : s.name = t.name) :
    s = t := hids s hs t ht (by rw [Seg.id, Seg.id, Seg.said, Seg.said, hname])

namespace Promotes

variable (hp : Promotes live range renames) (hids : IdsApart live)
include hp hids

/-- What a segment becomes. -/
lemma find?_eq {s : Seg} (hs : s ∈ live) :
    (∃ r ∈ renames, r.1 = s ∧ renames.find? (fun r => r.1.name = s.name) = some r) ∨
      (∀ r ∈ renames, r.1 ≠ s) ∧ renames.find? (fun r => r.1.name = s.name) = none := by
  cases hfind : renames.find? (fun r => r.1.name = s.name) with
  | none =>
      refine Or.inr ⟨fun r hr heq => ?_, rfl⟩
      exact List.find?_eq_none.mp hfind r hr (by rw [heq, decide_eq_true rfl])
  | some r =>
      have hr := List.mem_of_find?_eq_some hfind
      have hname : r.1.name = s.name := by simpa using List.find?_some hfind
      exact Or.inl ⟨r, hr, hids.eq_of_name (hp.sub r hr) hs hname, rfl⟩

/-- **What is live behind a promotion**: what it leaves, and what it renames under the new names. -/
lemma mem_promoted {s : Seg} :
    s ∈ Levels.promoted live renames ↔ (s ∈ live ∧ ∀ r ∈ renames, r.1 ≠ s) ∨
    ∃ r ∈ renames, r.1.renamed r.2 = s := by
  rw [Levels.promoted, List.mem_map]
  constructor
  · rintro ⟨x, hx, rfl⟩
    rcases hp.find?_eq hids hx with ⟨r, hr, hrx, hfind⟩ | ⟨hnone, hfind⟩
    · rw [hfind]
      exact Or.inr ⟨r, hr, by rw [hrx]; rfl⟩
    · rw [hfind]
      exact Or.inl ⟨hx, hnone⟩
  · rintro (⟨hs, hnone⟩ | ⟨r, hr, rfl⟩)
    · refine ⟨s, hs, ?_⟩
      rcases hp.find?_eq hids hs with ⟨r, hr, hrs, -⟩ | ⟨-, hfind⟩
      · exact absurd hrs (hnone r hr)
      · rw [hfind]
        rfl
    · refine ⟨r.1, hp.sub r hr, ?_⟩
      rcases hp.find?_eq hids (hp.sub r hr) with ⟨r', hr', heq, hfind⟩ | ⟨hnone, -⟩
      · have hsame : r' = r := List.inj_on_of_nodup_map hp.nodup hr' hr heq
        rw [hfind, hsame]
        rfl
      · exact absurd rfl (hnone r hr)

omit hids in
lemma within {r : Seg × Fence} (hr : r ∈ renames) : Within r.2 range :=
  fun k hk => (hp.cover k).mp ⟨r, hr, hk⟩

omit hids in
lemma apart_of_ne {a b : Seg × Fence} (ha : a ∈ renames) (hb : b ∈ renames) (hne : a ≠ b) :
    RangesApart a.2 b.2 := by
  have hsymm : Std.Symm (fun a b : Seg × Fence => RangesApart a.2 b.2) := ⟨fun _ _ hap => hap.symm⟩
  exact hp.apart.forall ha hb hne

omit hids in
/-- A segment that it leaves shares no key with the range. -/
lemma apart_left (h : Settled live queue) {s : Seg} (hs : s ∈ live)
    (hnone : ∀ r ∈ renames, r.1 ≠ s) : RangesApart s.fence range := by
  cases hsp : s.isPart with
  | false => exact hp.clear s hs hsp hnone
  | true =>
      rcases h.range_apart (Or.inl ⟨s, hs, hsp, rfl⟩) hp.isRange with heq | hap
      · obtain ⟨r, hr, hrs⟩ := (hp.parts s hs hsp).mpr heq
        exact absurd hrs (hnone r hr)
      · exact hap

/-- **The ranges behind a promotion** stood already, beside the range promoted, or lie inside it. -/
lemma range_promoted (h : Settled live queue) (hf : IsRange (Levels.promoted live renames) f) :
    (IsRange live f ∧ RangesApart f range) ∨ Within f range := by
  rcases hf with ⟨p, hpm, hpart, rfl⟩ | ⟨hnone, -⟩
  · rcases (hp.mem_promoted hids).mp hpm with ⟨hpl, hleft⟩ | ⟨r, hr, rfl⟩
    · exact Or.inl ⟨Or.inl ⟨p, hpl, hpart, rfl⟩, hp.apart_left h hpl hleft⟩
    · exact Or.inr (hp.within hr)
  · obtain ⟨r, hr, -⟩ := (hp.cover range.1).mpr (h.wide_range hp.isRange).inRange
    exact absurd (hnone _ ((hp.mem_promoted hids).mpr (Or.inr ⟨r, hr, rfl⟩))) (by simp)

omit hids in
/-- A segment renamed fits its new fence. -/
lemma fits_renamed (h : Settled live queue) {r : Seg × Fence} (hr : r ∈ renames) :
    (r.1.renamed r.2).Fits where
  wide := hp.wide r hr
  sorted := (h.fits r.1 (List.mem_append_left _ (hp.sub r hr))).sorted
  inside := hp.inside r hr

end Promotes

/-- **A promotion keeps the set settled.** -/
lemma Settled.promote (h : Settled live queue) (hp : Promotes live range renames)
    (hids : IdsApart live) : Settled (Levels.promoted live renames) queue := by
  have hmem := fun s => hp.mem_promoted hids (s := s)
  have hpiece : ∀ s ∈ Levels.promoted live renames, s.isPart = false → s ∈ live ∧
    ∀ r ∈ renames, r.1 ≠ s := by
    intro s hs hsp
    rcases (hmem s).mp hs with hs | ⟨r, hr, rfl⟩
    · exact hs
    · exact absurd hsp (by simp)
  refine ⟨fun s hs => ?_, fun p hpm q hqm hpp hqp hne => ?_, fun _ k => ?_, fun s hs hor f hf => ?_,
    fun s hs t ht hsp htp hne => h.ordered s (hpiece s hs hsp).1 t (hpiece t ht htp).1 hsp htp hne,
    fun s hs hsp t ht => h.behind s (hpiece s hs hsp).1 hsp t ht, h.lined, fun s hs hsp => ?_⟩
  · rcases List.mem_append.mp hs with hs | hs
    · rcases (hmem s).mp hs with ⟨hsl, -⟩ | ⟨r, hr, rfl⟩
      · exact h.fits_live s hsl
      · exact hp.fits_renamed h hr
    · exact h.fits s (List.mem_append_right _ hs)
  · rcases (hmem p).mp hpm with ⟨hpl, hpn⟩ | ⟨r, hr, rfl⟩
    · rcases (hmem q).mp hqm with ⟨hql, hqn⟩ | ⟨r', hr', rfl⟩
      · exact h.apart p hpl q hql hpp hqp hne
      · exact (hp.apart_left h hpl hpn).of_within (hp.within hr')
    · rcases (hmem q).mp hqm with ⟨hql, hqn⟩ | ⟨r', hr', rfl⟩
      · exact ((hp.apart_left h hql hqn).of_within (hp.within hr)).symm
      · exact hp.apart_of_ne hr hr' (fun heq => hne (by rw [heq]))
  · by_cases hk : range.Holds k
    · obtain ⟨r, hr, hrk⟩ := (hp.cover k).mpr hk
      exact ⟨_, (hmem _).mpr (Or.inr ⟨r, hr, rfl⟩), rfl, hrk⟩
    · obtain ⟨g, hg, hgk⟩ := h.exists_range k
      have hne : g ≠ range := fun heq => hk (heq ▸ hgk)
      rcases hg with ⟨p, hpl, hpart, rfl⟩ | ⟨hnone, rfl⟩
      · refine ⟨p, (hmem p).mpr (Or.inl ⟨hpl, fun r hr heq => ?_⟩), hpart, hgk⟩
        exact hne ((hp.parts p hpl hpart).mp ⟨r, hr, heq⟩)
      · rcases h.range_apart hp.isRange (Or.inr ⟨hnone, rfl⟩) with heq | hap
        · exact absurd heq.symm hne
        · exact absurd (full_holds _) (hap _ (h.wide_range hp.isRange).inRange)
  · have hold : s ∈ live ++ queue := by
      rcases List.mem_append.mp hs with hs | hs
      · rcases hor with hsp | hq
        · exact List.mem_append_left _ (hpiece s hs hsp).1
        · exact List.mem_append_right _ hq
      · exact List.mem_append_right _ hs
    rcases hp.range_promoted hids h hf with ⟨hf, -⟩ | hin
    · exact h.coarse s hold hor f hf
    · rcases h.coarse s hold hor range hp.isRange with hap | hwithin
      · exact Or.inl (hap.of_within hin)
      · exact Or.inr (hin.trans hwithin)
  · rw [Levels.promoted, h.first s hs hsp]
    rfl

/-- **A promotion leaves what the set says**: of a key of the range one segment speaks, under either
name. -/
lemma saysOf_promote (h : Settled live queue) (hp : Promotes live range renames)
    (hids : IdsApart live) (hnodup : live.Nodup) (hnodup' : (Levels.promoted live renames).Nodup)
    (k : Bytes) : saysOf (Levels.promoted live renames) k = saysOf live k := by
  have h' := h.promote hp hids
  have hmem := fun s => hp.mem_promoted hids (s := s)
  have hsilent : ∀ s ∈ live, s.reach k = false → s.delta k = 1 :=
    fun s hs => h.silent (List.mem_append_left _ hs)
  have hrenamed : ∀ r ∈ renames, ¬ r.2.Holds k → r.1.delta k = 1 :=
    fun r hr hk => Seg.delta_eq_one (fun hin => hk (hp.inside r hr k hin))
  by_cases hk : range.Holds k
  · obtain ⟨r, hr, hrk⟩ := (hp.cover k).mpr hk
    have hothers : ∀ r' ∈ renames, r' ≠ r → r'.1.delta k = 1 :=
      fun r' hr' hne => hrenamed r' hr' (fun hk' => hp.apart_of_ne hr' hr hne k hk' hrk)
    have hleft : ∀ s ∈ live, (∀ r' ∈ renames, r'.1 ≠ s) → s.delta k = 1 :=
      fun s hs hnone => hsilent s hs (Seg.reach_eq_false.mpr (fun hsk => hp.apart_left h hs hnone k hsk hk))
    have hbefore : saysOf live k = r.1.delta k := by
      refine settle_single (h.ranked hnodup) hnodup (hp.sub r hr) (fun b hb hne => ?_) (hsilent r.1 (hp.sub r hr))
      by_cases hb' : ∃ r' ∈ renames, r'.1 = b
      · obtain ⟨r', hr', rfl⟩ := hb'
        exact hothers r' hr' (fun heq => hne (by rw [heq]))
      · exact hleft b hb (fun r' hr' heq => hb' ⟨r', hr', heq⟩)
    have hafter : saysOf (Levels.promoted live renames) k = (r.1.renamed r.2).delta k := by
      refine settle_single (h'.ranked hnodup') hnodup' ((hmem _).mpr (Or.inr ⟨r, hr, rfl⟩)) (fun b hb hne => ?_)
        (fun hno => h'.silent (List.mem_append_left _ ((hmem _).mpr (Or.inr ⟨r, hr, rfl⟩))) hno)
      rcases (hmem b).mp hb with ⟨hbl, hbn⟩ | ⟨r', hr', rfl⟩
      · exact hleft b hbl hbn
      · exact hothers r' hr' (fun heq => hne (by rw [heq]))
    rw [hafter, hbefore, Seg.delta_renamed]
  · -- of any other key what is renamed says nothing
    classical
    have hbefore : saysOf live k = saysOf (live.filter (fun s => decide (∀ r ∈ renames, r.1 ≠ s)))
      k := by
      refine (settle_filter (h.ranked hnodup) _ (fun s hs hno => ?_)).symm
      have hno := of_decide_eq_false hno
      push Not at hno
      obtain ⟨r, hr, rfl⟩ := hno
      exact hrenamed r hr (fun hrk => hk (hp.within hr k hrk))
    have hafter : saysOf (Levels.promoted live renames) k
        = saysOf ((Levels.promoted live renames).filter (fun s => decide (∀ r ∈ renames, r.1.renamed r.2 ≠ s))) k := by
      refine (settle_filter (h'.ranked hnodup') _ (fun s hs hno => ?_)).symm
      have hno := of_decide_eq_false hno
      push Not at hno
      obtain ⟨r, hr, rfl⟩ := hno
      exact hrenamed r hr (fun hrk => hk (hp.within hr k hrk))
    rw [hbefore, hafter]
    refine settle_perm ((h'.ranked hnodup').sublist List.filter_sublist) ?_
    rw [List.perm_ext_iff_of_nodup (hnodup'.filter _) (hnodup.filter _)]
    intro s
    rw [List.mem_filter, List.mem_filter, hmem, decide_eq_true_eq, decide_eq_true_eq]
    constructor
    · rintro ⟨hs | ⟨r, hr, heq⟩, hno⟩
      · exact hs
      · exact absurd heq (hno r hr)
    · rintro ⟨hs, hno⟩
      refine ⟨Or.inl ⟨hs, hno⟩, fun r hr heq => ?_⟩
      exact hno r hr (hids _ (hp.sub r hr) s hs (by rw [← heq, Seg.id_renamed]))

/-! ## In flight -/

/-- A merge whose inputs are not renamed does not rewrite the range. -/
lemma Promotes.not_mem_ranges (h : Settled live queue) (hp : Promotes live range renames)
    {m : MergeJob} (hm : MergeOk live m)
    (hfree : ∀ r ∈ renames, r.1 ∉ m.inputs) : range ∉ m.ranges := by
  intro hin
  rcases hp.isRange with ⟨p, hpl, hpart, hpf⟩ | ⟨hnone, hfull⟩
  · obtain ⟨r, hr, hrp⟩ := (hp.parts p hpl hpart).mpr hpf
    exact hfree r hr (hrp ▸ (hm.parts p hpl hpart).mpr (hpf ▸ hin))
  · obtain ⟨s, hs⟩ := List.exists_mem_of_ne_nil _ hm.ne
    have hap := hp.apart_left h (hm.sub s hs) (fun r hr heq => hfree r hr (heq ▸ hs))
    rw [hfull] at hap
    exact hap _ (h.fits_live s (hm.sub s hs)).wide.inRange (full_holds _)

/-- A merge outlives a promotion that renames none of its inputs. -/
lemma MergeOk.promote (h : Settled live queue) (hp : Promotes live range renames)
    (hids : IdsApart live) {m : MergeJob}
    (hm : MergeOk live m) (hfree : ∀ r ∈ renames, r.1 ∉ m.inputs) :
    MergeOk (Levels.promoted live renames) m := by
  have hmem := fun s => hp.mem_promoted hids (s := s)
  have hsub : ∀ s ∈ m.inputs, s ∈ Levels.promoted live renames :=
    fun s hs => (hmem s).mpr (Or.inl ⟨hm.sub s hs, fun r hr heq => hfree r hr (heq ▸ hs)⟩)
  have hnot := hp.not_mem_ranges h hm hfree
  refine ⟨hsub, hm.nodup, hm.ne, fun f hf => ?_, fun q hq hqp => ?_, hm.part, fun s hs f hf => ?_,
    fun s hs hsp t ht htp htn => ?_, hm.outs, hm.apart, hm.cover, hm.merged⟩
  · rcases hm.ranges f hf with ⟨p, hpl, hpart, rfl⟩ | ⟨hnone, rfl⟩
    · exact Or.inl ⟨p, hsub p ((hm.parts p hpl hpart).mpr hf), hpart, rfl⟩
    · rcases h.range_apart hp.isRange (Or.inr ⟨hnone, rfl⟩) with heq | hap
      · exact absurd (heq ▸ hf) hnot
      · exact absurd (full_holds _) (hap _ (h.wide_range hp.isRange).inRange)
  · rcases (hmem q).mp hq with ⟨hql, -⟩ | ⟨r, hr, rfl⟩
    · exact hm.parts q hql hqp
    · refine ⟨fun hin => ?_, fun hin => ?_⟩
      · have heq := hids _ (hm.sub _ hin) r.1 (hp.sub r hr) rfl
        exact absurd (heq ▸ hin) (hfree r hr)
      · rcases h.range_apart (hm.ranges _ hin) hp.isRange with heq | hap
        · exact absurd (heq ▸ hin) hnot
        · exact absurd (hp.within hr _ (hp.wide r hr).inRange) (hap _ (hp.wide r hr).inRange)
  · rcases hp.range_promoted hids h hf with ⟨hf, -⟩ | hin
    · exact hm.within s hs f hf
    · rcases hm.within s hs range hp.isRange with hmine | hap
      · exact absurd hmine hnot
      · exact Or.inr (hap.of_within hin)
  · rcases (hmem t).mp ht with ⟨htl, -⟩ | ⟨r, hr, rfl⟩
    · exact hm.older s hs hsp t htl htp htn
    · exact absurd htp (by simp)

/-- A piece merge outlives a promotion that renames none of its inputs. -/
lemma TierOk.promote (hp : Promotes live range renames) (hids : IdsApart live) {t : TierJob}
    (ht : TierOk live t)
    (hfree : ∀ r ∈ renames, r.1 ∉ t.inputs) : TierOk (Levels.promoted live renames) t where
  sub s hs :=
    ⟨(hp.mem_promoted hids).mpr (Or.inl ⟨(ht.sub s hs).1, fun r hr heq => hfree r hr (heq ▸ hs)⟩),
    (ht.sub s hs).2⟩
  nodup := ht.nodup
  ne := ht.ne
  same := ht.same
  one := ht.one
  outs := ht.outs
  between s hs hsp hnot := by
    rcases (hp.mem_promoted hids).mp hs with ⟨hsl, -⟩ | ⟨r, hr, rfl⟩
    · exact ht.between s hsl hsp hnot
    · exact absurd hsp (by simp)
  merged := ht.merged

end Promote

/-! ## Both promotions -/

section Both

variable {h : Levels} {f : Fence} {ps : List Seg} {bounds : List Bytes}

/-- Pieces paired with as many fences. -/
lemma mem_zip_left {α β : Type} {l : List α} {m : List β} (hlen : m.length = l.length) {a : α}
    (ha : a ∈ l) : ∃ r ∈ l.zip m, r.1 = a := by
  have hmap : (l.zip m).map Prod.fst = l := List.map_fst_zip (by omega)
  rw [← hmap] at ha
  exact List.mem_map.mp ha

/-- **A range promoted**: its partition keeps what lies below the first piece, and each piece takes
its share. -/
lemma promoteRange_promotes (hs : Settled h.live h.queue) (hnodup : h.live.Nodup) {p : Seg}
    (hp : p ∈ h.parts) (hpf : p.fence = f)
    (haligned : h.live.any (fun s => !s.isPart && !Levels.candidate f s && fencesOverlap s.fence f)
    = false) (hchain : Levels.promotionChain f p.keys.getLast? (h.live.filter (Levels.candidate f))
    = some (ps, bounds)) :
    Promotes h.live f
      ((p, (f.1, some (bounds.headD []))) :: ps.zip (Levels.chainFences f.2 bounds)) ∧
      ∀ s ∈ ps, s ∈ h.live ∧ Levels.candidate f s = true := by
  obtain ⟨hperm, hne, hbounds⟩ := promotionChain_eq hchain
  have hcand : ∀ s, s ∈ ps ↔ s ∈ h.live ∧ Levels.candidate f s = true :=
    fun s => by rw [hperm.mem_iff, List.mem_filter]
  have hfits := hs.fits_live
  have hpiece : ∀ s ∈ ps, s.isPart = false ∧ (s.fence = f ∨ f.2 = none) := by
    intro s hsp
    have hc := ((hcand s).mp hsp).2
    rw [Levels.candidate, Bool.and_eq_true, Bool.not_eq_true', Bool.or_eq_true,
      decide_eq_true_eq] at hc
    refine ⟨hc.1, hc.2.imp_right (fun hopen => ?_)⟩
    rw [Bool.and_eq_true, Bool.and_eq_true, decide_eq_true_eq] at hopen
    exact hopen.1.1
  have hend : ∀ s ∈ ps, ∀ k ∈ s.keys, ∀ x ∈ f.2, k < x := by
    intro s hsp k hk x hx
    rcases (hpiece s hsp).2 with hsf | hnone
    · have hin := (hfits s ((hcand s).mp hsp).1).inside k hk
      rw [hsf] at hin
      exact hin.2 x hx
    · rw [hnone] at hx
      exact absurd hx.symm (Option.some_ne_none _)
  obtain ⟨b, rest, rfl, hchained, hfloor, hlt⟩ :=
    chainBounds_chained (fun s hsp => (hfits s ((hcand s).mp hsp).1).sorted) hend hne hbounds
  obtain ⟨hspans, hwide, hlen, hkeys⟩ := hchained.fences
  obtain ⟨hpl, hpp⟩ := mem_parts.mp hp
  have hspans' : Spans f.1 f.2 ((f.1, some b) :: Levels.chainFences f.2 (b :: rest)) := hspans.cons
  have hwide' : ∀ g ∈ (f.1, some b) :: Levels.chainFences f.2 (b :: rest), Wide g := by
    intro g hg
    rcases List.mem_cons.mp hg with rfl | hg
    · exact fun x hx => by rwa [← Option.some.inj hx]
    · exact hwide g hg
  have hfst : (ps.zip (Levels.chainFences f.2 (b :: rest))).map Prod.fst = ps :=
    List.map_fst_zip (by omega)
  have hsnd : ((p, ((f.1, some b) : Fence)) :: ps.zip (Levels.chainFences f.2 (b :: rest))).map
      Prod.snd = (f.1, some b) :: Levels.chainFences f.2 (b :: rest) := by
    rw [List.map_cons, List.map_snd_zip (by omega)]
  have hzip : ∀ r ∈ ps.zip (Levels.chainFences f.2 (b :: rest)), r.1 ∈ ps :=
    fun r hr => hfst ▸ List.mem_map_of_mem hr
  have hmemFence :
      ∀ r ∈ (p, ((f.1, some b) : Fence)) :: ps.zip (Levels.chainFences f.2 (b :: rest)),
      r.2 ∈ (f.1, some b) :: Levels.chainFences f.2 (b :: rest) :=
      fun r hr => hsnd ▸ List.mem_map_of_mem hr
  rw [List.headD_cons]
  refine ⟨⟨fun r hr => ?_, ?_, Or.inl ⟨p, hpl, hpp, hpf⟩, fun r hr => hwide' _ (hmemFence r hr), ?_,
    fun k => ?_, fun r hr k hk => ?_,
    fun q hq hqp => ⟨?_, fun hqf => ?_⟩, fun s hsl hsp hnone => ?_⟩, fun s hsp => (hcand s).mp hsp⟩
  · rcases List.mem_cons.mp hr with rfl | hr
    · exact hpl
    · exact ((hcand r.1).mp (hzip r hr)).1
  · rw [List.map_cons, hfst, List.nodup_cons]
    refine ⟨fun hin => ?_, hperm.nodup_iff.mpr (hnodup.filter _)⟩
    exact absurd hpp (by simp [(hpiece p hin).1])
  · rw [← List.pairwise_map (f := Prod.snd), hsnd]
    exact (hspans'.apart hwide').1
  · rw [Fence.Holds, ← InRange, ← hspans'.mem_iff hwide', ← hsnd]
    simp only [List.mem_map, exists_exists_and_eq_and]
    rfl
  · rcases List.mem_cons.mp hr with rfl | hr
    · have hin := (hfits p hpl).inside k hk
      rw [hpf] at hin
      refine ⟨hin.1, fun x hx => ?_⟩
      rw [← Option.some.inj hx]
      have hget := List.getLast?_eq_some_getLast (List.ne_nil_of_mem hk)
      exact (le_getLast (hfits p hpl).sorted hget k hk).trans_lt (hfloor _ hget)
    · exact hkeys r hr k hk
  · rintro ⟨r, hr, rfl⟩
    rcases List.mem_cons.mp hr with rfl | hr
    · exact hpf
    · exact absurd hqp (by simp [(hpiece r.1 (hzip r hr)).1])
  · refine ⟨_, List.mem_cons_self, ?_⟩
    by_contra hne'
    have hap := hs.apart p hpl q hq hpp hqp hne'
    rw [hpf, hqf] at hap
    exact (hqf ▸ (hfits q hq).wide).not_apart_self hap
  · have hno : Levels.candidate f s = false := by
      rw [← Bool.not_eq_true]
      intro hc
      obtain ⟨r, hr, hrs⟩ := mem_zip_left hlen ((hcand s).mpr ⟨hsl, hc⟩)
      exact hnone r (List.mem_cons_of_mem _ hr) hrs
    rw [List.any_eq_false] at haligned
    have hover : ¬ fencesOverlap s.fence f = true := by
      intro hover
      exact haligned s hsl (by rw [hsp, hno, hover]; rfl)
    rw [fencesOverlap_iff (hfits s hsl).wide (hpf ▸ (hfits p hpl).wide)] at hover
    exact fun k hsk hfk => hover ⟨k, hsk, hfk⟩

/-- **The first partitions promoted**: where every segment goes at once. -/
lemma promoteUnpartitioned_promotes (hs : Settled h.live h.queue) (hnodup : h.live.Nodup)
    (hparts : h.parts = [])
    (hchain : Levels.promotionChain ([], none) none h.l0 = some (ps, bounds)) :
    Promotes h.live ([], none) (ps.zip (Levels.chainFences none ([] :: bounds.drop 1))) ∧
    ∀ s ∈ ps, s ∈ h.l0 := by
  obtain ⟨hperm, hne, hbounds⟩ := promotionChain_eq hchain
  have hno : ∀ p ∈ h.live, p.isPart = false := parts_eq_nil.mp hparts
  have hmem : ∀ s, s ∈ ps ↔ s ∈ h.live := by
    intro s
    rw [hperm.mem_iff, mem_l0]
    exact ⟨And.left, fun hsl => ⟨hsl, hno s hsl⟩⟩
  have hfits := hs.fits_live
  obtain ⟨b, rest, rfl, hchained, -, -⟩ :=
    chainBounds_chained (fun s hsp => (hfits s ((hmem s).mp hsp)).sorted)
    (fun s _ k _ x hx => absurd hx.symm (Option.some_ne_none _)) hne hbounds
  have hopen : Chained none ps ([] :: rest) := hchained.lower (nil_le b)
  obtain ⟨hspans, hwide, hlen, hkeys⟩ := hopen.fences
  rw [List.drop_one, List.tail_cons]
  have hfst : (ps.zip (Levels.chainFences none ([] :: rest))).map Prod.fst = ps :=
    List.map_fst_zip (by omega)
  have hsnd : (ps.zip (Levels.chainFences none ([] :: rest))).map Prod.snd
    = Levels.chainFences none ([] :: rest) :=
    List.map_snd_zip (by omega)
  have hzip : ∀ r ∈ ps.zip (Levels.chainFences none ([] :: rest)), r.1 ∈ ps :=
    fun r hr => hfst ▸ List.mem_map_of_mem hr
  refine ⟨⟨fun r hr => (hmem r.1).mp (hzip r hr), ?_, Or.inr ⟨hno, rfl⟩,
    fun r hr => hwide _ (hsnd ▸ List.mem_map_of_mem hr), ?_, fun k => ?_, hkeys, fun p hp hpart =>
    absurd hpart (by simp [hno p hp]), fun s hsl _ hnone => ?_⟩, fun s hsp => hperm.mem_iff.mp hsp⟩
  · rw [hfst]
    exact hperm.nodup_iff.mpr (hnodup.filter _)
  · rw [← List.pairwise_map (f := Prod.snd), hsnd]
    exact (hspans.apart hwide).1
  · rw [Fence.Holds, ← InRange, ← hspans.mem_iff hwide]
    conv_rhs => rw [← hsnd]
    simp only [List.mem_map, exists_exists_and_eq_and]
    rfl
  · obtain ⟨r, hr, hrs⟩ := mem_zip_left hlen ((hmem s).mpr hsl)
    exact absurd hrs (hnone r hr)

end Both

end Supdb

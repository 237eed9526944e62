import Mathlib.Tactic

/-!
# Saturation

A set grown by rules until none adds to it.  A rule meets some of the elements there are; one that
meets an element of the set brings in every element it meets.  The set is a list, and a pass goes
over the rules in order, each seeing what the ones before it brought in; passes are made until one
brings in nothing.

* **`Reached`** – what the rules bring in from a seed, whatever their order.
* **`saturate`** – the passes.  They end, since one that brings something in leaves fewer elements
  outside.
* **`mem_saturate`** – saturation gives exactly what is reached, which is the least set that holds
  the seed and is closed (`Reached.least`).
-/

namespace StorageLib

variable {α ρ : Type}

/-! ## The passes -/

/-- What is brought in is new, and is there. -/
structure Grown (all : List α) (s t : List α × Bool) : Prop where
  sub : ∀ a ∈ s.1, a ∈ t.1
  flag : s.2 = true → t.2 = true
  same : t.2 = false → t.1 = s.1
  fresh : t.2 = true → s.2 = true ∨ ∃ a ∈ all, a ∉ s.1 ∧ a ∈ t.1

lemma Grown.refl (all : List α) (s : List α × Bool) : Grown all s s :=
  ⟨fun _ h => h, id, fun _ => rfl, fun h => Or.inl h⟩

lemma Grown.trans {all : List α} {s t u : List α × Bool} (h : Grown all s t) (k : Grown all t u) :
    Grown all s u := by
  refine ⟨fun a ha => k.sub a (h.sub a ha), fun hs => k.flag (h.flag hs), fun hu => ?_,
    fun hu => ?_⟩
  · have ht : t.2 = false := by
      by_contra hne
      exact absurd (k.flag ((Bool.not_eq_false _).mp hne)) (by rw [hu]; exact Bool.false_ne_true)
    rw [k.same hu, h.same ht]
  · rcases k.fresh hu with ht | ⟨a, ha, hnot, hin⟩
    · rcases h.fresh ht with hs | ⟨a, ha, hnot, hin⟩
      · exact Or.inl hs
      · exact Or.inr ⟨a, ha, hnot, k.sub a hin⟩
    · exact Or.inr ⟨a, ha, fun hs => hnot (h.sub a hs), hin⟩

lemma grown_foldl {β : Type} {all : List α} {f : List α × Bool → β → List α × Bool} (l : List β)
    (hf : ∀ b ∈ l, ∀ s, Grown all s (f s b)) : ∀ s, Grown all s (l.foldl f s) := by
  induction l with
  | nil => exact fun s => Grown.refl all s
  | cons b l ih =>
      intro s
      rw [List.foldl_cons]
      exact (hf b List.mem_cons_self s).trans (ih (fun c hc => hf c (List.mem_cons_of_mem b hc)) _)

/-- A fold that brings in nothing leaves the set at every step. -/
lemma foldl_still {β : Type} {all : List α} {f : List α × Bool → β → List α × Bool} (l : List β)
    (hf : ∀ b ∈ l, ∀ s, Grown all s (f s b)) : ∀ s, (l.foldl f s).2 = false →
    ∀ b ∈ l, f s b = s := by
  induction l with
  | nil => exact fun s _ b hb => absurd hb List.not_mem_nil
  | cons b l ih =>
      intro s hend c hc
      rw [List.foldl_cons] at hend
      have hone := hf b List.mem_cons_self s
      have hrest := grown_foldl l (fun c hc => hf c (List.mem_cons_of_mem b hc)) (f s b)
      have hflag : (f s b).2 = false := by
        by_contra hne
        rw [hrest.flag ((Bool.not_eq_false _).mp hne)] at hend
        exact absurd hend Bool.false_ne_true.symm
      have hs : s.2 = false := by
        by_contra hne
        rw [hone.flag ((Bool.not_eq_false _).mp hne)] at hflag
        exact absurd hflag Bool.false_ne_true.symm
      have hsame : f s b = s := Prod.ext (hone.same hflag) (hflag.trans hs.symm)
      rcases List.mem_cons.mp hc with rfl | hc
      · exact hsame
      · rw [hsame] at hend
        exact ih (fun c hc => hf c (List.mem_cons_of_mem b hc)) s hend c hc

variable [DecidableEq α] (meets : ρ → α → Bool) (all : List α) (rules : List ρ)

/-- A rule's elements brought in, one by one; the flag says whether any was new. -/
def takeIn (r : ρ) (s : List α × Bool) (a : α) : List α × Bool :=
  if meets r a && !s.1.contains a then (s.1 ++ [a], true) else s

/-- A rule applied: where it meets an element of the set, every element it meets is brought in. -/
def applyRule (s : List α × Bool) (r : ρ) : List α × Bool :=
  if s.1.any (meets r) then all.foldl (takeIn meets r) s else s

/-- One pass over the rules. -/
def pass (s : List α) : List α × Bool := rules.foldl (applyRule meets all) (s, false)

variable {meets all rules}

lemma grown_takeIn {r : ρ} {a : α} (ha : a ∈ all) (s : List α × Bool) :
    Grown all s (takeIn meets r s a) := by
  rw [takeIn]
  by_cases h : (meets r a && !s.1.contains a) = true
  · rw [if_pos h]
    refine ⟨fun b hb => List.mem_append_left _ hb, fun _ => rfl,
      fun hf => absurd hf Bool.false_ne_true.symm, fun _ => ?_⟩
    rw [Bool.and_eq_true, Bool.not_eq_true', List.contains_eq_mem, decide_eq_false_iff_not] at h
    exact Or.inr ⟨a, ha, h.2, List.mem_append_right _ (List.mem_singleton.mpr rfl)⟩
  · rw [if_neg h]
    exact Grown.refl all s

lemma grown_applyRule (r : ρ) (s : List α × Bool) : Grown all s (applyRule meets all s r) := by
  rw [applyRule]
  by_cases h : s.1.any (meets r) = true
  · rw [if_pos h]
    exact grown_foldl all (fun a ha t => grown_takeIn ha t) s
  · rw [if_neg h]
    exact Grown.refl all s

lemma grown_pass (s : List α) : Grown all (s, false) (pass meets all rules s) :=
  grown_foldl rules (fun r _ t => grown_applyRule r t) (s, false)

/-- The elements outside. -/
def outside (all s : List α) : List α := all.filter (fun a => !s.contains a)

lemma outside_lt {s t : List α} (hsub : ∀ a ∈ s, a ∈ t) {a : α} (ha : a ∈ all) (hnot : a ∉ s)
    (hin : a ∈ t) : (outside all t).length < (outside all s).length := by
  have hmono : ∀ l : List α, (outside l t).length ≤ (outside l s).length := by
    intro l
    refine (List.monotone_filter_right l (fun b hb => ?_)).length_le
    simp only [Bool.not_eq_true', List.contains_eq_mem, decide_eq_false_iff_not] at hb ⊢
    exact fun hs => hb (hsub b hs)
  obtain ⟨l, r, rfl⟩ := List.append_of_mem ha
  have hl := hmono l
  have hr := hmono r
  have hs : (!s.contains a) = true := by simp [hnot]
  have ht : ¬(!t.contains a) = true := by simp [hin]
  simp only [outside, List.filter_append, List.length_append, List.filter_cons] at hl hr ⊢
  rw [if_pos hs, if_neg ht, List.length_cons]
  omega

variable (meets all rules)

/-- **Passes until one brings in nothing.** -/
def saturate (s : List α) : List α :=
  let next := pass meets all rules s
  if _h : next.2 = true then saturate next.1 else next.1
termination_by (outside all s).length
decreasing_by
  have hgrown := @grown_pass _ _ _ meets all rules s
  rcases hgrown.fresh _h with hf | ⟨a, ha, hnot, hin⟩
  · exact absurd hf Bool.false_ne_true
  · exact outside_lt hgrown.sub ha hnot hin

/-! ## What is reached -/

/-- **What the rules bring in from a seed.** -/
inductive Reached (seed : List α) : α → Prop
  | seed {a : α} : a ∈ seed → Reached seed a
  | rule {r : ρ} {a b : α} : r ∈ rules → Reached seed a → meets r a = true → b ∈ all →
    meets r b = true → Reached seed b

variable {meets all rules}

omit [DecidableEq α] in
/-- It is the least such set. -/
lemma Reached.least {seed : List α} {P : α → Prop} (hseed : ∀ a ∈ seed, P a)
    (hrule : ∀ r ∈ rules, ∀ a, P a → meets r a = true → ∀ b ∈ all, meets r b = true → P b) {a : α}
    (h : Reached meets all rules seed a) : P a := by
  induction h with
  | seed ha => exact hseed _ ha
  | rule hr _ hmeets hb hmeets' ih => exact hrule _ hr _ ih hmeets _ hb hmeets'

lemma reached_takeIn {seed : List α} {r : ρ} {a0 : α} (hr : r ∈ rules)
    (h0 : Reached meets all rules seed a0) (hmeets : meets r a0 = true) (l : List α)
    (hl : ∀ a ∈ l, a ∈ all) : ∀ s : List α × Bool,
    (∀ a ∈ s.1, Reached meets all rules seed a) → ∀ a ∈ (l.foldl (takeIn meets r) s).1,
    Reached meets all rules seed a := by
  induction l with
  | nil => exact fun s hs => hs
  | cons b l ih =>
      intro s hs
      rw [List.foldl_cons]
      refine ih (fun a ha => hl a (List.mem_cons_of_mem b ha)) _ (fun a ha => ?_)
      rw [takeIn] at ha
      split_ifs at ha with hin
      · rcases List.mem_append.mp ha with ha | ha
        · exact hs a ha
        · rw [List.mem_singleton.mp ha]
          exact Reached.rule hr h0 hmeets (hl b List.mem_cons_self) ((Bool.and_eq_true _ _).mp hin).1
      · exact hs a ha

lemma reached_pass {seed : List α} (l : List ρ) (hl : ∀ r ∈ l, r ∈ rules) : ∀ s : List α × Bool,
    (∀ a ∈ s.1, Reached meets all rules seed a) → ∀ a ∈ (l.foldl (applyRule meets all) s).1,
    Reached meets all rules seed a := by
  induction l with
  | nil => exact fun s hs => hs
  | cons r l ih =>
      intro s hs
      rw [List.foldl_cons]
      refine ih (fun r' hr => hl r' (List.mem_cons_of_mem r hr)) _ ?_
      rw [applyRule]
      by_cases hany : s.1.any (meets r) = true
      · rw [if_pos hany]
        obtain ⟨a0, ha0, hmeets⟩ := List.any_eq_true.mp hany
        exact reached_takeIn (hl r List.mem_cons_self) (hs a0 ha0) hmeets all (fun _ h => h) s hs
      · rw [if_neg hany]
        exact hs

/-- A pass that brings in nothing finds the set closed. -/
lemma closed_of_pass {s : List α} (h : (pass meets all rules s).2 = false) {r : ρ} (hr : r ∈ rules)
    {a b : α} (ha : a ∈ s)
    (hmeets : meets r a = true) (hb : b ∈ all) (hmeets' : meets r b = true) : b ∈ s := by
  have hstill := foldl_still rules (fun r _ t => grown_applyRule r t) (s, false) h r hr
  rw [applyRule, if_pos (List.any_eq_true.mpr ⟨a, ha, hmeets⟩)] at hstill
  have hone := foldl_still all (fun a ha t => grown_takeIn ha t) (s, false) (by rw [hstill]) b hb
  by_contra hnot
  rw [takeIn, if_pos (by simp [hmeets', hnot])] at hone
  exact absurd (congrArg Prod.snd hone) Bool.false_ne_true.symm

/-- **Saturation gives what is reached.** -/
theorem mem_saturate (s : List α) {a : α} : a ∈ saturate meets all rules s ↔
    Reached meets all rules s a := by
  constructor
  · have hsound : ∀ t, (∀ a ∈ t, Reached meets all rules s a) → ∀ a ∈ saturate meets all rules t,
        Reached meets all rules s a := by
      intro t
      fun_induction saturate meets all rules t with
      | case1 t next h ih =>
          intro ht
          exact ih (reached_pass rules (fun _ h => h) (t, false) ht)
      | case2 t next h =>
          intro ht
          exact reached_pass rules (fun _ h => h) (t, false) ht
    exact hsound s (fun _ h => Reached.seed h) a
  · have hsub : ∀ t, ∀ a ∈ t, a ∈ saturate meets all rules t := by
      intro t
      fun_induction saturate meets all rules t with
      | case1 t next h ih => exact fun a ha => ih a ((grown_pass t).sub a ha)
      | case2 t next h => exact fun a ha => (grown_pass t).sub a ha
    have hclosed : ∀ t, ∀ r ∈ rules, ∀ a ∈ saturate meets all rules t, meets r a = true →
        ∀ b ∈ all, meets r b = true → b ∈ saturate meets all rules t := by
      intro t
      fun_induction saturate meets all rules t with
      | case1 t next h ih => exact ih
      | case2 t next h =>
          intro r hr a ha hmeets b hb hmeets'
          have hfalse : (pass meets all rules t).2 = false := (Bool.not_eq_true _).mp h
          have hsame : (pass meets all rules t).1 = t := (grown_pass t).same hfalse
          change a ∈ (pass meets all rules t).1 at ha
          change b ∈ (pass meets all rules t).1
          rw [hsame] at ha ⊢
          exact closed_of_pass hfalse hr ha hmeets hb hmeets'
    exact fun h => h.least (hsub s)
      (fun r hr a ha hmeets b hb hmeets' => hclosed s r hr a ha hmeets b hb hmeets')

/-- Saturation repeats nothing. -/
lemma nodup_saturate {s : List α} (h : s.Nodup) : (saturate meets all rules s).Nodup := by
  have htake : ∀ (r : ρ) (l : List α) (t : List α × Bool), t.1.Nodup →
    (l.foldl (takeIn meets r) t).1.Nodup := by
    intro r l
    induction l with
    | nil => exact fun t ht => ht
    | cons b l ih =>
        intro t ht
        rw [List.foldl_cons]
        refine ih _ ?_
        rw [takeIn]
        split_ifs with hin
        · have hnot : b ∉ t.1 := by simpa using ((Bool.and_eq_true _ _).mp hin).2
          exact List.nodup_append.mpr ⟨ht, List.nodup_singleton b, fun a ha c hc => by
            rw [List.mem_singleton.mp hc]
            exact fun hab => hnot (hab ▸ ha)⟩
        · exact ht
  have hpass : ∀ (l : List ρ) (t : List α × Bool), t.1.Nodup →
    (l.foldl (applyRule meets all) t).1.Nodup := by
    intro l
    induction l with
    | nil => exact fun t ht => ht
    | cons r l ih =>
        intro t ht
        rw [List.foldl_cons]
        refine ih _ ?_
        rw [applyRule]
        split_ifs with hin
        · exact htake r all t ht
        · exact ht
  fun_induction saturate meets all rules s with
  | case1 t next hn ih => exact ih (hpass rules (t, false) h)
  | case2 t next hn => exact hpass rules (t, false) h

end StorageLib

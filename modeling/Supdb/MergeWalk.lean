import Mathlib.Data.List.Destutter
import Supdb.Merge

/-!
# What a merge's walks visit

Over inputs whose keys increase, both walks of a merge, by the records or by the heads, each key
kept or read again, visit the same distinct keys in order, each tied in the inputs that hold it; so
does asking every input for every key.  What the tied inputs come to for a key is the composition of
what each of them says.
-/

namespace Supdb

open StorageLib

/-- An input as a merge opens it: its keys increase, and its ordered index is theirs. -/
structure Input.Ok (s : Input) : Prop where
  sorted : s.keys.Pairwise (· < ·)
  ord : ∀ o ∈ s.ord, o = OrdIndex.compose s.keys

/-- What a segment says of a key. -/
def deltaIn (entries : List Entry) (k : Bytes) : Delta Bytes :=
  match entries.find? (fun e => e.key = k) with
  | some e => ⟨e.tomb, e.values⟩
  | none => 1

/-- What the inputs say of a key together, oldest first. -/
def merged (inputs : List Input) (k : Bytes) : Delta Bytes :=
  (inputs.map (fun s => deltaIn s.entries k)).prod

section Walks

variable {inputs : List Input}

/-! ## The distinct keys -/

lemma allKeys_eq (inputs : List Input) :
    allKeys inputs = ((inputs.flatMap Input.keys).mergeSort).dedup :=
  (List.pairwise_mergeSort' (· ≤ ·) _).destutter_eq_dedup

lemma pairwise_allKeys (inputs : List Input) : (allKeys inputs).Pairwise (· < ·) := by
  have hle : ((inputs.flatMap Input.keys).mergeSort).Pairwise (· ≤ ·) :=
    List.pairwise_mergeSort' (· ≤ ·) _
  rw [allKeys_eq]
  have hsub := hle.sublist (List.dedup_sublist _)
  exact (hsub.and (List.nodup_dedup _)).imp (fun h => lt_of_le_of_ne h.1 h.2)

lemma mem_allKeys {k : Bytes} : k ∈ allKeys inputs ↔ ∃ l ∈ inputs.map Input.keys, k ∈ l := by
  rw [allKeys_eq, List.mem_dedup, List.mem_mergeSort, List.mem_flatMap]
  constructor
  · rintro ⟨s, hs, hk⟩
    exact ⟨s.keys, List.mem_map_of_mem hs, hk⟩
  · rintro ⟨l, hl, hk⟩
    obtain ⟨s, hs, rfl⟩ := List.mem_map.mp hl
    exact ⟨s, hs, hk⟩

lemma length_allKeys_le (inputs : List Input) : (allKeys inputs).length ≤ totalKeys inputs := by
  have h := (List.destutter_sublist (· ≠ ·) ((inputs.flatMap Input.keys).mergeSort)).length_le
  rw [List.length_mergeSort, List.length_flatMap] at h
  refine h.trans (le_of_eq ?_)
  rw [totalKeys]
  congr 1
  refine List.map_congr_left (fun s _ => ?_)
  rw [Input.keys, List.length_map]

/-! ## The walks -/

variable (hok : ∀ s ∈ inputs, s.Ok)

include hok

lemma sorted_keys : ∀ l ∈ inputs.map Input.keys, l.Pairwise (· < ·) := by
  intro l hl
  obtain ⟨s, hs, rfl⟩ := List.mem_map.mp hl
  exact (hok s hs).sorted

omit hok in
lemma recordKeyAt_eq (i : ℕ) (hi : i < (inputs.map Input.keys).length) (r : ℕ) :
    recordKeyAt inputs i r = (inputs.map Input.keys)[i][r]? := by
  have hi' : i < inputs.length := by simpa using hi
  rw [recordKeyAt, List.getElem?_eq_getElem hi', List.getElem_map]
  rfl

/-- Keys read by the heads are the records' keys. -/
lemma headKeyAt_eq (heads : Bool) (i : ℕ) (hi : i < (inputs.map Input.keys).length) (r : ℕ) :
    headKeyAt inputs (inputs.map (openOrd heads)) i r = (inputs.map Input.keys)[i][r]? := by
  have hi' : i < inputs.length := by simpa using hi
  have hs := hok _ (List.getElem_mem hi')
  set s := inputs[i] with hsi
  have hord : (inputs.map (openOrd heads)).getD i none = openOrd heads s := by
    rw [List.getD_eq_getElem?_getD, List.getElem?_map, List.getElem?_eq_getElem hi']
    rfl
  rw [headKeyAt, List.getElem?_eq_getElem hi', List.getElem_map, hord]
  simp only [Option.bind_eq_bind, Option.bind_some, ← hsi]
  have hlen : s.keys.length = s.entries.length := by rw [Input.keys, List.length_map]
  by_cases hr : s.entries.length ≤ r
  · rw [if_pos hr, List.getElem?_eq_none (by omega)]
  · rw [if_neg hr]
    cases hk : (openOrd heads s).bind (fun o => o.wholeKeyAt r) with
    | none => rfl
    | some k =>
        obtain ⟨o, ho, hk⟩ := Option.bind_eq_some_iff.mp hk
        rw [openOrd] at ho
        split_ifs at ho with hh
        simp only [Option.bind_eq_bind, Option.bind_eq_some_iff] at ho
        obtain ⟨ord, hord, first, hfirst, k0, -, heq⟩ := ho
        rw [← Option.some.inj heq, hs.ord ord hord] at hk
        rw [← List.head?_eq_getElem?] at hfirst
        exact (OrdIndex.wholeKeyAt_compose hs.sorted hfirst hk).symm

variable {σ : Type} (f : σ → Bytes → List (ℕ × ℕ) → Except String σ) (s : σ)

/-- **The walk by the records.** -/
lemma mergeRanks_eq (cached : Bool) :
    mergeRanks inputs cached f s
      = (allKeys inputs).foldlM (fun s k => f s k (tiedOf (inputs.map Input.keys) k)) s := by
  have h := kmerge_eq (sorted_keys hok) recordKeyAt_eq cached f (pairwise_allKeys inputs)
    (fun _ => mem_allKeys) (length_allKeys_le inputs) s
  rwa [List.length_map] at h

end Walks

/-! ## What the tied inputs come to -/

section Tied

variable {inputs : List Input}

/-- The entry a tie points at. -/
def tiedEntry (inputs : List Input) (t : ℕ × ℕ) : Option Entry :=
  inputs[t.1]?.bind (fun s => s.entries[t.2]?)

/-- In a segment whose keys increase, the entry at a key's rank is the one found for it. -/
lemma find?_of_getElem? {entries : List Entry} (h : (entries.map Entry.key).Pairwise (· < ·))
    {r : ℕ} {e : Entry} (he : entries[r]? = some e) :
    entries.find? (fun x => x.key = e.key) = some e := by
  obtain ⟨hr, rfl⟩ := List.getElem?_eq_some_iff.mp he
  rw [List.find?_eq_some_iff_getElem]
  refine ⟨by simp, r, hr, rfl, ?_⟩
  intro j hj
  have hlt := List.pairwise_iff_getElem.mp h j r (by simp; omega) (by simpa using hr) hj
  simp only [List.getElem_map] at hlt
  simpa using hlt.ne

/-- The entry of a key in an input that holds it stands at the rank the walk gives. -/
lemma tiedEntry_rank (hok : ∀ s ∈ inputs, s.Ok) {i : ℕ} (hi : i < inputs.length) {k : Bytes}
    (hk : k ∈ inputs[i].keys) :
    ∃ e, tiedEntry inputs (i, rankIn inputs[i].keys k) = some e ∧
      inputs[i].entries.find? (fun x => x.key = k) = some e := by
  have hs := (hok _ (List.getElem_mem hi)).sorted
  have hone : ∀ l ∈ [inputs[i].keys], l.Pairwise (· < ·) := by
    intro l hl
    rw [List.mem_singleton.mp hl]
    exact hs
  have hget : inputs[i].keys[rankIn inputs[i].keys k]? = some k :=
    getElem?_rankIn hone (List.mem_singleton_self _) hk
  set r := rankIn inputs[i].keys k with hr
  rw [Input.keys, List.getElem?_map, Option.map_eq_some_iff] at hget
  obtain ⟨e, he, hek⟩ := hget
  refine ⟨e, ?_, ?_⟩
  · rw [tiedEntry, List.getElem?_eq_getElem hi]
    exact he
  · rw [← hek]
    exact find?_of_getElem? hs he

/-- A tie is an input that holds the key, and the key's rank there. -/
lemma mem_tiedOf_keys {k : Bytes} {t : ℕ × ℕ} (ht : t ∈ tiedOf (inputs.map Input.keys) k) :
    ∃ hi : t.1 < inputs.length, k ∈ inputs[t.1].keys ∧ t.2 = rankIn inputs[t.1].keys k := by
  simp only [tiedOf, List.mem_map, List.mem_filter] at ht
  obtain ⟨⟨l, i⟩, ⟨hl, hk⟩, rfl⟩ := ht
  obtain ⟨hi, hli⟩ := List.getElem?_eq_some_iff.mp (List.mem_zipIdx_iff_getElem?.mp hl)
  rw [List.getElem_map] at hli
  have hi' : i < inputs.length := by simpa using hi
  have hl' : l = inputs[i].keys := hli.symm
  have hkl : k ∈ l := by simpa using hk
  exact ⟨hi', hl' ▸ hkl, congrArg (fun x => rankIn x k) hl'⟩

/-- A key's ties all point at an entry. -/
lemma tiedEntry_tiedOf (hok : ∀ s ∈ inputs, s.Ok) (k : Bytes) :
    ∀ t ∈ tiedOf (inputs.map Input.keys) k, ∃ e, tiedEntry inputs t = some e := by
  rintro ⟨i, r⟩ ht
  obtain ⟨hi, hk, hr⟩ := mem_tiedOf_keys ht
  obtain ⟨e, he, -⟩ := tiedEntry_rank hok hi hk
  dsimp only at hr he
  rw [hr]
  exact ⟨e, he⟩

/-- What a tie says of its key. -/
def tiedDelta (inputs : List Input) (t : ℕ × ℕ) : Delta Bytes :=
  match tiedEntry inputs t with
  | some e => ⟨e.tomb, e.values⟩
  | none => 1

/-- The tied inputs say of a key what all inputs say of it. -/
lemma merged_eq_tied (hok : ∀ s ∈ inputs, s.Ok) (k : Bytes) :
    merged inputs k = ((tiedOf (inputs.map Input.keys) k).map (tiedDelta inputs)).prod := by
  have hidx : inputs.map (fun s => deltaIn s.entries k)
      = inputs.zipIdx.map (fun s => deltaIn s.1.entries k) := by
    conv_lhs => rw [← List.zipIdx_map_fst 0 inputs, List.map_map]
    rfl
  rw [merged, hidx]
  symm
  refine prod_tiedOf inputs Input.keys (tiedDelta inputs) (fun s => deltaIn s.1.entries k) ?_ ?_
  · intro s hs hk
    obtain ⟨hi, h⟩ := List.getElem?_eq_some_iff.mp (List.mem_zipIdx_iff_getElem?.mp hs)
    obtain ⟨e, he, hfind⟩ := tiedEntry_rank hok hi (by rw [h]; exact hk)
    rw [h] at he hfind
    rw [tiedDelta, he, deltaIn, hfind]
  · intro s hs hk
    have hnot : s.1.entries.find? (fun e => e.key = k) = none := by
      rw [List.find?_eq_none]
      intro e he hek
      refine hk ?_
      rw [← (by simpa using hek : e.key = k)]
      exact List.mem_map_of_mem he
    rw [deltaIn, hnot]

/-- The loop of `gather` over ties that all point at an entry: where the kept values start, how many
there are, and whether any masks. -/
lemma gather_spec (ties : List (ℕ × ℕ)) (h : ∀ t ∈ ties, ∃ e, tiedEntry inputs t = some e) :
    ∃ start, start ≤ ties.length ∧
      gather inputs ties = .ok (start, (ties.map (tiedDelta inputs)).prod.vals.length,
        (ties.map (tiedDelta inputs)).prod.masks) ∧
      valuesOf inputs (ties.drop start) = (ties.map (tiedDelta inputs)).prod.vals := by
  induction ties using List.reverseRecOn with
  | nil => exact ⟨0, le_refl _, rfl, rfl⟩
  | append_singleton ties t ih =>
      obtain ⟨start, hle, hg, hv⟩ := ih (fun x hx => h x (List.mem_append_left _ hx))
      obtain ⟨e, he⟩ := h t (by simp)
      have hd : tiedDelta inputs t = ⟨e.tomb, e.values⟩ := by rw [tiedDelta, he]
      have hone : valuesOf inputs [t] = e.values := by
        rw [valuesOf, List.flatMap_singleton]
        change ((tiedEntry inputs t).map Entry.values).getD [] = e.values
        rw [he]
        rfl
      have hsnoc : gather inputs (ties ++ [t])
          = gather inputs ties >>= fun st =>
            if e.tomb then .ok (ties.length, e.values.length, true)
            else .ok (st.1, st.2.1 + e.values.length, st.2.2) := by
        have he' : inputs[t.1]?.bind (fun s => s.entries[t.2]?) = some e := he
        simp only [gather, List.zipIdx_append, List.foldlM_append, List.zipIdx_cons,
          List.zipIdx_nil, List.foldlM_cons, List.foldlM_nil, he', Nat.zero_add, bind_pure]
      rw [List.map_append, List.prod_append, List.map_singleton, List.prod_singleton, hd, hsnoc, hg]
      cases ht : e.tomb with
      | true =>
          refine ⟨ties.length, by simp, by simp [Delta.mul_def]; rfl, ?_⟩
          rw [List.drop_left, hone]
          simp [Delta.mul_def]
      | false =>
          refine ⟨start, by simp; omega, by simp [Delta.mul_def]; rfl, ?_⟩
          rw [List.drop_append_of_le_length hle]
          have happ : valuesOf inputs (ties.drop start ++ [t])
              = valuesOf inputs (ties.drop start) ++ valuesOf inputs [t] := by
            rw [valuesOf, List.flatMap_append]
            rfl
          rw [happ, hv, hone]
          simp [Delta.mul_def]

end Tied

end Supdb

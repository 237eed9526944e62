import Supdb.ReserveWriter

/-!
# Runs and their extents

A key's values are stored as one run and described by an extent: how long the run is, where its last
value starts, and how many values it has, with the flags above the count.  A run that goes into its
record is described by four bytes, and a reader makes the extent again from those and the run.

* `closeRun` – what `end_with` makes of a key's values, or the reason it refuses them; `endWith_eq`
  – it is what the writer closes a key by.
* `valueRec` – a value as a run holds it.  `runOf_eq_flatMap` – a run is its values' records.
* `closeRun_round_trip` – **the values come back** in order and counted, **the last of them starts
  where the extent says**, the planner's `run_len` is the run's length, and **a compact header
  stands for the extent** – for every list of values the writer takes, and those are the ones whose
  run is shorter than `2 ^ 32` bytes and that are fewer than `2 ^ 30`.
-/

namespace Supdb

open StorageLib Reserve

/-- The extent `end_with` makes of a key's values, for a run that goes into the record, and the run;
an error past the extent's limits. -/
def closeRun (values : Bytes) (lens : List ℕ) (records : ℕ) (tombstone : Bool) :
    Except String (Bytes × Ext) :=
  let (run, last, fixed) := encodeRun values lens
  if 2 ^ 32 - 1 < run.length then .error "segment writer: a key's values exceed 4 GiB in one segment"
  else if Ext.FIXED ≤ records then .error "segment writer: a key's values exceed the extent's count"
  else .ok (run, { block := Ext.INLINE, off := 0, len := run.length % 2 ^ 32, last := last,
                   count := countWord records fixed tombstone })

/-- **The writer closes a key** by its run and the two words of the extent that are not the run's
place. -/
lemma endWith_eq (lz : Lz4) (w : SegmentWriter) (tombstone : Bool) :
    w.endWith lz tombstone = match w.openKey with
      | none => .error "segment writer: end without begin"
      | some key => closeRun w.raw w.lens w.records tombstone >>= fun r =>
          (w.closeKey key tombstone).addRun lz key r.1 r.2.last r.2.count := by
  rw [SegmentWriter.endWith]
  cases w.openKey with
  | none => rfl
  | some key =>
      simp only [closeRun]
      split_ifs <;> rfl

/-! ## A run's records -/

/-- A value as a run holds it: its bytes, behind their number where the values differ in width. -/
def valueRec (fixed : Bool) (v : Bytes) : Bytes :=
  if fixed then v else Index.putUvarint v.length ++ v

section Records

@[simp] lemma valueRec_true : valueRec true = id := by
  funext v
  rfl

@[simp] lemma valueRec_false : valueRec false = fun v => Index.putUvarint v.length ++ v := by
  funext v
  rfl

/-- **A run is its values' records.** -/
lemma runOf_eq_flatMap (vals : List Bytes) :
    runOf vals = vals.flatMap (valueRec (fixedOf vals)) := by
  rw [runOf_eq]
  cases fixedOf vals with
  | true => simp
  | false => simp [prefixedRun]

/-- **The last value starts** behind the records of the others. -/
lemma lastOf_append (init : List Bytes) (v : Bytes) :
    lastOf (init ++ [v]) = (init.flatMap (valueRec (fixedOf (init ++ [v])))).length := by
  rw [lastOf]
  by_cases hfixed : fixedOf (init ++ [v])
  · obtain ⟨w, -, -, hhead, hall⟩ := isFixedRun_map_length hfixed
    have hinit : init.flatten.length = init.length * w :=
      length_flatten_of_width init (fun u hu => hall u (List.mem_append_left _ hu))
    rw [if_pos hfixed, hhead, hfixed, valueRec_true, List.flatMap_id, hinit]
    simp
  · rw [if_neg hfixed, prefixedLast, List.dropLast_concat]
    simp [hfixed, prefixedRun]

lemma lastOf_nil : lastOf [] = 0 := rfl

/-- The last value starts inside the run. -/
lemma lastOf_le (vals : List Bytes) : lastOf vals ≤ (runOf vals).length := by
  rcases List.eq_nil_or_concat vals with rfl | ⟨init, v, rfl⟩
  · rw [lastOf_nil]
    exact Nat.zero_le _
  · rw [List.concat_eq_append, lastOf_append, runOf_eq_flatMap, List.flatMap_append,
      List.length_append]
    exact Nat.le_add_right _ _

end Records

/-! ## The round trip -/

section RoundTrip

variable {vals : List Bytes} {tombstone : Bool}

/-- **What the writer makes of values** it takes, and which it takes. -/
lemma closeRun_eq (vals : List Bytes) (tombstone : Bool) :
    closeRun vals.flatten (vals.map List.length) (vals.length % 2 ^ 32) tombstone =
      if (runOf vals).length < 2 ^ 32 then
        if vals.length < 2 ^ 30 then .ok (runOf vals, inlineExt vals tombstone)
        else .error "segment writer: a key's values exceed the extent's count"
      else .error "segment writer: a key's values exceed 4 GiB in one segment" := by
  have hcount := length_le_runOf vals
  have hlast := lastOf_le vals
  rw [closeRun, encodeRun_eq]
  dsimp only
  by_cases hrun : (runOf vals).length < 2 ^ 32
  · have hrecords : vals.length % 2 ^ 32 = vals.length := Nat.mod_eq_of_lt (by omega)
    rw [if_neg (by omega), if_pos hrun, hrecords]
    by_cases hfew : vals.length < 2 ^ 30
    · rw [if_neg (by rw [Ext.FIXED]; omega), if_pos hfew, inlineExt, Nat.mod_eq_of_lt hrun,
        Nat.mod_eq_of_lt (by omega)]
    · rw [if_pos (by rw [Ext.FIXED]; omega), if_neg hfew]
  · rw [if_pos (by omega), if_neg hrun]

/-- **Runs and extents round-trip**, for every list of values: the run has the length the planner
gives it, the writer refuses it where it does not fit an extent, and otherwise the run is the
values' records, the walk over it hands out the values, the last of them starts where the extent
says, and a compact header stands for the extent. -/
theorem closeRun_round_trip (vals : List Bytes) (tombstone : Bool) :
    Reserve.runLen (vals.map List.length)
      = (encodeRun vals.flatten (vals.map List.length)).1.length ∧
      ((closeRun vals.flatten (vals.map List.length) (vals.length % 2 ^ 32) tombstone).isOk ↔
        (runOf vals).length < 2 ^ 32 ∧ vals.length < 2 ^ 30) ∧
      ∀ run e, closeRun vals.flatten (vals.map List.length) (vals.length % 2 ^ 32) tombstone
        = .ok (run, e) → run = vals.flatMap (valueRec (fixedOf vals)) ∧
        eachValue run e = (vals, .ok vals.length) ∧
        (∀ init v, vals = init ++ [v] → e.last = (init.flatMap (valueRec (fixedOf vals))).length) ∧
        (run.length < COMPACT_RUN → compactExt (compactHeader e) run = some e) := by
  refine ⟨runLen_eq vals, ?_, fun run e hclose => ?_⟩
  · rw [closeRun_eq]
    split_ifs with hrun hfew
    · exact iff_of_true rfl ⟨hrun, hfew⟩
    · exact iff_of_false Bool.false_ne_true (fun h => hfew h.2)
    · exact iff_of_false Bool.false_ne_true (fun h => hrun h.1)
  · rw [closeRun_eq] at hclose
    split_ifs at hclose with hrun hfew
    rw [Except.ok.injEq, Prod.mk.injEq] at hclose
    obtain ⟨rfl, rfl⟩ := hclose
    refine ⟨runOf_eq_flatMap vals, eachValue_runOf hfew hrun rfl rfl, fun init v hvals => ?_,
      compactExt_inlineExt tombstone⟩
    subst hvals
    exact lastOf_append init v

/-- Values of three widths, one of them empty and one behind a two-byte number. -/
theorem closeRun_round_trip_three :
    ∃ run e, closeRun [[1], [], List.replicate 200 7].flatten
        ([[1], [], List.replicate 200 7].map List.length) 3 true = .ok (run, e) ∧
      eachValue run e = ([[1], [], List.replicate 200 7], .ok 3) ∧ e.last = 3 ∧
      compactExt (compactHeader e) run = some e := by
  have h := closeRun_round_trip [[1], [], List.replicate 200 7] true
  have hclose := closeRun_eq [[1], [], List.replicate 200 7] true
  rw [if_pos (by decide +kernel), if_pos (by decide)] at hclose
  obtain ⟨hrun, heach, hlast, hcompact⟩ := h.2.2 _ _ hclose
  refine ⟨_, _, hclose, heach, ?_, hcompact (by decide +kernel)⟩
  rw [hlast [[1], []] _ rfl]
  decide +kernel

end RoundTrip

end Supdb

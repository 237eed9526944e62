import Supdb.SealJob
import Supdb.SnapArena

/-!
# Runs in the snapshot's arena

A key's run is its whole chain, oldest chunk first: a count, a length, and of each chunk its offset,
its length and, of a value, its bytes.  A thread that extends a snapshot copies a run into room it
reserves, one write after another, while other threads do the same; the seal copies a whole table,
keys and runs, into one reservation.

* `HashedTable.copyRun` – `copy_run`: the room it reserves, and what it writes where.
* `known_of_run` – **what a range was given is what its own call wrote**, whatever ran between.
* `fromFrozen_reads` – **the copy of any table** reads back from the arena it is written to.
* `snapArena_safe` – **the arena under any interleaving.**  `snapArena_strays`: a tail that wraps
  gives two calls the same byte.
-/

namespace Supdb

open StorageLib

/-! ## What is copied -/

namespace HashedTable

/-- The writes of a run's records, from `p` on. -/
def recordWrites (t : HashedTable) : ℕ → List (ℕ × ℕ) → Option (List (ℕ × Bytes))
  | _, [] => some []
  | p, c :: cs =>
      if c.2 = TOMB_LEN then do
        let rest ← t.recordWrites (p + 12) cs
        some ((p, leBytes 8 c.1) :: (p + 8, leBytes 4 c.2) :: rest)
      else do
        let v ← t.valueAt c.1
        let rest ← t.recordWrites (p + 12 + c.2) cs
        some ((p, leBytes 8 c.1) :: (p + 8, leBytes 4 c.2) :: (p + 12, v) :: rest)

/-- `copy_run`: the bytes it reserves, and the writes it makes of them. -/
def copyRun (t : HashedTable) (e : MemEntry) : Option (ℕ × List (ℕ × Bytes)) := do
  let chain ← t.walkChain (t.vals.tail + 1) e.chainHead
  let bytes := (chain.map (fun c => 12 + if c.2 = TOMB_LEN then 0 else c.2)).sum
  let records ← t.recordWrites 8 chain.reverse
  some (8 + bytes, (0, leBytes 4 chain.length) :: (4, leBytes 4 bytes) :: records)

end HashedTable

/-- A write of the `j`-th call. -/
def SnapOp.writeOf (j : ℕ) : SnapOp → Option (ℕ × Bytes)
  | write i p bytes => if i = j then some (p, bytes) else none
  | _ => none

/-- The steps of a seal that copies a table: its one call, and what it writes of its room. -/
def sealSteps (n : ℕ) (bytes : Bytes) : List SnapOp :=
  [.call n, .take 0, .look 0, .publish 0, .write 0 0 bytes]

section Copies

variable {t : HashedTable} {cs : List KeyChain} {c : KeyChain} {e : MemEntry}
    {l ds : List (ℕ × Option Bytes)}

/-- The records' writes lie in a row, and are the records. -/
lemma recordWrites_eq (h : Linked t.vals l) (hds : ∀ d ∈ ds, d ∈ l) (p : ℕ) :
    ∃ ws, t.recordWrites p (ds.map (fun d => (d.1, lenWord d.2))) = some ws ∧ InARow p ws ∧
      ws.flatMap Prod.snd = ds.flatMap recBytes := by
  induction ds generalizing p with
  | nil => exact ⟨[], rfl, trivial, rfl⟩
  | cons d ds ih =>
      obtain ⟨hd, hrest⟩ := List.forall_mem_cons.mp hds
      obtain ⟨prev, hchunk⟩ := h.mem hd
      obtain ⟨off, value⟩ := d
      cases value with
      | none =>
          obtain ⟨ws, hws, hrow, hflat⟩ := ih hrest (p + 12)
          refine ⟨(p, leBytes 8 off) :: (p + 8, leBytes 4 TOMB_LEN) :: ws, ?_, ⟨rfl, ?_, ?_⟩, ?_⟩
          · rw [List.map_cons, HashedTable.recordWrites, if_pos (show lenWord none = TOMB_LEN from rfl), hws]
            rfl
          · rw [length_leBytes]
          · rw [length_leBytes, length_leBytes]
            exact hrow
          · rw [List.flatMap_cons, List.flatMap_cons, hflat, List.flatMap_cons, recBytes]
            simp [lenWord]
      | some v =>
          have hword : v.length ≠ TOMB_LEN := hchunk.2.2.2.ne
          obtain ⟨ws, hws, hrow, hflat⟩ := ih hrest (p + 12 + v.length)
          refine ⟨(p, leBytes 8 off) :: (p + 8, leBytes 4 v.length) :: (p + 12, v) :: ws, ?_, ⟨rfl, ?_, ?_, ?_⟩, ?_⟩
          · rw [List.map_cons, HashedTable.recordWrites]
            show (if v.length = TOMB_LEN then _ else (t.valueAt off).bind fun v' =>
              (t.recordWrites (p + 12 + v.length) _).bind _) = _
            rw [if_neg hword, valueAt_eq hchunk, Option.bind_some, hws]
            rfl
          · rw [length_leBytes]
          · rw [length_leBytes, length_leBytes]
          · rw [length_leBytes, length_leBytes]
            exact hrow
          · rw [List.flatMap_cons, List.flatMap_cons, List.flatMap_cons, hflat, List.flatMap_cons, recBytes]
            simp [lenWord]

/-- **What `copy_run` writes**: a run, in a row, over all the room it reserves. -/
lemma GrownEntry.copyRun (ha : t.vals.Ok) (h : GrownEntry t.keys t.vals e c) :
    ∃ ws, t.copyRun e = some (8 + (runBytes c.2).length, ws) ∧ InARow 0 ws ∧
      ws.flatMap Prod.snd = leBytes 4 c.2.length ++
      (leBytes 4 (runBytes c.2).length ++ runBytes c.2) := by
  obtain ⟨ws, hws, hrow, hflat⟩ :=
    recordWrites_eq h.linked (fun d hd => List.mem_reverse.mp hd) 8
  refine ⟨(0, leBytes 4 c.2.length) :: (4, leBytes 4 (runBytes c.2).length) :: ws, ?_,
    ⟨rfl, ?_, ?_⟩, ?_⟩
  · rw [HashedTable.copyRun, h.chainHead, walkChain_eq ha h.linked (Nat.lt_succ_of_le h.short)]
    simp only [Option.bind_eq_bind, Option.bind_some, ← List.map_reverse, hws, List.length_map,
      sum_recLens ha h.linked]
  · rw [length_leBytes]
  · rw [length_leBytes, length_leBytes]
    exact hrow
  · rw [List.flatMap_cons, List.flatMap_cons, hflat]
    rfl

end Copies

/-! ## What a range was given -/

section Known

variable {s s' : SnapState} {ops : List SnapOp} {op : SnapOp} {j n off : ℕ}

/-- A step leaves a call that has returned as it is. -/
lemma step_got (hstep : s.step op = some s') (hj : s.calls[j]? = some (.got n off)) :
    s'.calls[j]? = some (.got n off) := by
  cases op with
  | call m =>
      have hword : m < 2 ^ 64 := by
        by_contra hword
        rw [SnapState.step, if_neg hword] at hstep
        exact absurd hstep (by simp)
      rw [SnapState.step, if_pos hword, Option.some.injEq] at hstep
      rw [← hstep]
      exact (List.getElem?_append_left (List.getElem?_eq_some_iff.mp hj).1).trans hj
  | take i =>
      obtain ⟨m, hcall, rfl⟩ := step_take hstep
      have hne : i ≠ j := by
        rintro rfl
        exact absurd (hcall.symm.trans hj) (by simp)
      exact (List.getElem?_set_ne hne).trans hj
  | look i =>
      obtain ⟨m, o, b, hcall, rfl⟩ := step_look hstep
      have hne : i ≠ j := by
        rintro rfl
        exact absurd (hcall.symm.trans hj) (by simp)
      exact (List.getElem?_set_ne hne).trans hj
  | publish i =>
      obtain ⟨m, o, b, hcall, rfl⟩ := step_publish hstep
      have hne : i ≠ j := by
        rintro rfl
        exact absurd (hcall.symm.trans hj) (by simp)
      exact (List.getElem?_set_ne hne).trans hj
  | write i p bytes =>
      obtain ⟨m, o, a, -, -, -, rfl⟩ := step_write hstep
      exact hj

/-- **What a step gives a range** is what its own call writes. -/
lemma known_of_step (h : s.Ok) (hstep : s.step op = some s') (hj : s.calls[j]? = some (.got n off))
    {x : ℕ} (hlo : off ≤ x) (hhi : x < off + n) :
    s'.known x = overlayAll s.known off (op.writeOf j).toList x := by
  cases op with
  | call m =>
      rw [SnapState.step] at hstep
      by_cases hword : m < 2 ^ 64
      · rw [if_pos hword, Option.some.injEq] at hstep
        rw [← hstep]
        rfl
      · rw [if_neg hword] at hstep
        exact absurd hstep (by simp)
  | take i =>
      obtain ⟨m, -, rfl⟩ := step_take hstep
      rfl
  | look i =>
      obtain ⟨m, o, b, -, rfl⟩ := step_look hstep
      rfl
  | publish i =>
      obtain ⟨m, o, b, -, rfl⟩ := step_publish hstep
      rfl
  | write i p bytes =>
      obtain ⟨m, o, a, hcall, hroom, -, rfl⟩ := step_write hstep
      by_cases hij : i = j
      · rw [hij, hj, Option.some.injEq, SnapCall.got.injEq] at hcall
        obtain ⟨rfl, rfl⟩ := hcall
        rw [SnapOp.writeOf, if_pos hij]
        rfl
      · -- another call's bytes are apart from these
        rw [SnapOp.writeOf, if_neg hij]
        show overlay s.known (o + p) bytes x = s.known x
        by_cases hempty : bytes.length = 0
        · rw [overlay, if_neg (by omega)]
        · have hapart := h.good.apart i j m o n off hij hcall hj (by omega) (by omega)
          rw [overlay, if_neg (by omega)]

/-- **What a run gives a range** is what its own call wrote in it, whatever ran between. -/
lemma known_of_run (h : s.Ok) (hmeets : s.MeetsAll ops) (hrun : s.run ops = some s')
    (hj : s.calls[j]? = some (.got n off)) :
    s'.calls[j]? = some (.got n off) ∧ ∀ x, off ≤ x → x < off + n →
      s'.known x = overlayAll s.known off (ops.filterMap (SnapOp.writeOf j)) x := by
  induction ops generalizing s with
  | nil =>
      rw [← Option.some.inj hrun]
      exact ⟨hj, fun _ _ _ => rfl⟩
  | cons op ops ih =>
      rw [SnapState.run, List.foldlM_cons, Option.bind_eq_bind, Option.bind_eq_some_iff] at hrun
      obtain ⟨s₁, hstep, hrest⟩ := hrun
      obtain ⟨hj', hknown⟩ := ih (h.step hmeets.1 hstep) (hmeets.2 s₁ hstep) hrest (step_got hstep hj)
      refine ⟨hj', fun x hlo hhi => ?_⟩
      have hsplit : (op :: ops).filterMap (SnapOp.writeOf j)
          = (op.writeOf j).toList ++ ops.filterMap (SnapOp.writeOf j) := by
        cases hw : op.writeOf j with
        | none => rw [List.filterMap_cons_none hw]; rfl
        | some w => rw [List.filterMap_cons_some hw]; rfl
      rw [hknown x hlo hhi, hsplit, overlayAll, overlayAll, List.foldl_append]
      exact overlayAll_congr (fun y => off ≤ y ∧ y < off + n)
        (fun y hy => known_of_step h hstep hj hy.1 hy.2) _ _ x ⟨hlo, hhi⟩

/-- **A run written to a range reads back.** -/
lemma run_of_known {l : List (ℕ × Option Bytes)} (h : s.Ok)
    (hj : s.calls[j]? = some (.got n off)) {p : ℕ} (hroom : p + 8 + (runBytes l).length ≤ n)
    (hknown : ∀ i v, (leBytes 4 l.length ++ (leBytes 4 (runBytes l).length ++ runBytes l))[i]?
      = some v →
      s.known (off + p + i) = some v) : s.arena.run (off + p) = some (l.length, runBytes l) := by
  set x := leBytes 4 l.length ++ leBytes 4 (runBytes l).length with hx
  have hxlen : x.length = 8 := by
    rw [hx, List.length_append, length_leBytes, length_leBytes]
  rw [← List.append_assoc, ← hx] at hknown
  have hsmall : off + n < 2 ^ 32 := by
    obtain ⟨b, w, mem, hin, -⟩ := h.placed _ (List.mem_of_getElem? hj) (by omega)
    exact hin.small
  have hcount : l.length ≤ (runBytes l).length := length_le_runBytes l
  have hhead : s.arena.slice (off + p) 8 = some x := by
    rw [← hxlen]
    refine h.good.reads j n off hj p x (by omega) (fun i v hv => hknown i v ?_)
    rw [List.getElem?_append_left (List.getElem?_eq_some_iff.mp hv).1]
    exact hv
  have hbody : s.arena.slice (off + p + 8) (runBytes l).length = some (runBytes l) := by
    rw [Nat.add_assoc]
    refine h.good.reads j n off hj (p + 8) (runBytes l) (by omega) (fun i v hv => ?_)
    have hplace :=
      hknown (8 + i) v
      (by rw [List.getElem?_append_right (by omega), hxlen, Nat.add_sub_cancel_left]; exact hv)
    rwa [← Nat.add_assoc] at hplace ⊢
  have hn : leNat (x.take 4) = l.length := by
    rw [hx, List.take_left' (length_leBytes _ _), leNat_leBytes (by norm_num; omega)]
  have hb : leNat (x.drop 4) = (runBytes l).length := by
    rw [hx, List.drop_left' (length_leBytes _ _), leNat_leBytes (by norm_num; omega)]
  rw [SnapArena.run, hhead]
  simp only [Option.bind_eq_bind, Option.bind_some, hb, hbody, hn]

end Known

/-! ## The seal's copy -/

section Seals

variable {s : SnapState} {n i p off : ℕ} {bytes : Bytes}

/-- A write to a place of a range that was returned does not stop. -/
lemma write_lands (h : s.Ok) (hcall : s.calls[i]? = some (.got n off))
    (hroom : p + bytes.length ≤ n) :
    ∃ a, s.step (.write i p bytes) = some ⟨a, s.calls, overlay s.known (off + p) bytes⟩ := by
  have hwrite : ∃ a, s.arena.write (off + p) bytes = some a := by
    rw [SnapArena.write]
    by_cases hempty : bytes = []
    · exact ⟨_, if_pos hempty⟩
    · have hlen : 0 < bytes.length := List.length_pos_iff.mpr hempty
      obtain ⟨mem, w, -, hblock⟩ := h.good.lands i n off hcall (by omega)
      rw [if_neg hempty, hblock p _ hlen hroom]
      exact ⟨_, rfl⟩
  obtain ⟨a, ha⟩ := hwrite
  refine ⟨a, ?_⟩
  rw [SnapState.step, hcall]
  simp only [if_pos hroom, ha, Option.map_some]

/-- The first block of an arena holds what it was made for. -/
lemma le_firstBlock (hsmall : n < 2 ^ 32) : n ≤ snapCap (baseShift n) 0 := by
  have hclog : Nat.clog 2 n ≤ 32 := Nat.clog_le_of_le_pow hsmall.le
  have hshift : baseShift n < 64 := by
    rw [baseShift, SNAP_BASE_SHIFT]
    omega
  rw [snapCap, Nat.mod_eq_of_lt hshift, Nat.add_zero]
  exact (Nat.le_pow_clog (by decide) n).trans
    (Nat.pow_le_pow_right (by decide) (Nat.le_max_left _ _))

/-- **The seal's one reservation** begins the arena, and holds what the seal writes. -/
lemma sealSteps_run (hn : 0 < n) (hsmall : n < 2 ^ 32) (hroom : bytes.length ≤ n) :
    ∃ s, (SnapState.new n).run (sealSteps n bytes) = some s ∧ s.Ok ∧ s.calls[0]? = some (.got n 0) ∧
      ∀ i v, bytes[i]? = some v → s.known i = some v := by
  set a := SnapArena.withCapacity n with ha
  have htry : a.tryAt n = .landing n 0 0 := by
    have hfirst := le_firstBlock hsmall
    have hplace : a.tail = snapStart a.shift 0 + 0 := by
      rw [snapStart]
      simp [ha, SnapArena.withCapacity]
    rw [tryAt_eq hplace (snapCap_pos _ _) (by decide)
      (by simpa [ha, SnapArena.withCapacity] using hsmall),
      if_neg (by rw [Nat.zero_add]; exact not_lt.mpr hfirst)]
    rfl
  have hsum : addWord a.tail n = n := by
    show (0 + n) % 2 ^ 64 = n
    omega
  let s₁ : SnapState := ⟨a, [.trying n], fun _ => none⟩
  let s₂ : SnapState := ⟨{ a with tail := n }, [.landing n 0 0], fun _ => none⟩
  let s₃ : SnapState := ⟨{ a with tail := n }, [.making n 0 0], fun _ => none⟩
  let s₄ : SnapState := ⟨SnapArena.publish { a with tail := n } 0, [.got n 0], fun _ => none⟩
  have h₁ : (SnapState.new n).step (.call n) = some s₁ := by
    rw [SnapState.step, if_pos (by omega), if_neg hn.ne']
    rfl
  have h₂ : s₁.step (.take 0) = some s₂ := by
    show some (⟨{ a with tail := addWord a.tail n }, [a.tryAt n], fun _ => none⟩ : SnapState)
      = some s₂
    rw [hsum, htry]
  have h₃ : s₂.step (.look 0) = some s₃ := rfl
  have h₄ : s₃.step (.publish 0) = some s₄ := rfl
  have hok₁ := (SnapState.new_ok n).call h₁
  have hmeets : (SnapOp.take 0).Meets s₁ := by
    intro m hm
    rw [show s₁.calls[0]? = some (.trying n) from rfl, Option.some.injEq,
      SnapCall.trying.injEq] at hm
    show 0 + m < 2 ^ 64
    omega
  have hok₄ := (((hok₁.take hmeets h₂).look h₃).publish h₄)
  have hcall : s₄.calls[0]? = some (.got n 0) := rfl
  obtain ⟨a', hwrite⟩ := write_lands (p := 0) hok₄ hcall (by rwa [Nat.zero_add])
  refine ⟨_, ?_, hok₄.write hwrite, rfl, fun i v hv => ?_⟩
  · rw [SnapState.run, sealSteps]
    simp only [List.foldlM_cons, List.foldlM_nil, h₁, h₂, h₃, h₄, hwrite, Option.bind_eq_bind,
      Option.bind_some]
    rfl
  · have hwritten := @overlay_written _ 0 _ _ s₄.known hv
    rwa [Nat.zero_add] at hwritten

end Seals

/-- **The copy of any table** reads back from the arena it is written to. -/
lemma fromFrozen_reads {t : HashedTable} {cs : List KeyChain} {order : List ℕ} (h : t.Grown cs)
    (hperm : order.Perm (List.range t.entries.length)) :
    t.fromFrozen order = some none ∨ ∃ copy, t.fromFrozen order = some (some copy) ∧
      copy.ents.map SnapKey.frozen = order ∧
      ∀ x ∈ copy.ents, ∃ e s, t.entries[x.frozen]? = some e ∧ (t.keyOf e).isSome = true ∧ (t.runOf e).isSome = true ∧
        (SnapState.new (t.keys.used + t.vals.used + 8 * order.length)).run
          (sealSteps (t.keys.used + t.vals.used + 8 * order.length) copy.arena) = some s ∧
        s.arena.slice x.off x.len = t.keyOf e ∧ s.arena.run x.frun = t.runOf e := by
  rw [h.length] at hperm
  rcases h.fromFrozen hperm with hnone | ⟨copy, hsome, ⟨hents, hcopied⟩, hle, hsmall⟩
  · exact Or.inl hnone
  · refine Or.inr ⟨copy, hsome, hents, fun x hx => ?_⟩
    obtain ⟨c, hc, hlen, hfrun, -, hrange⟩ := hcopied x hx
    have hlt : x.frozen < t.entries.length := by
      rw [h.length]
      exact (List.getElem?_eq_some_iff.mp hc).1
    have he := List.getElem?_eq_getElem hlt
    have hentry := h.entry _ _ c he hc
    have hkeyrun := length_keyRun c.1 c.2
    set n := t.keys.used + t.vals.used + 8 * order.length with hn
    -- an entry was copied, so bytes were reserved
    obtain ⟨-, hend, hbytes⟩ := getRange_eq_some.mp hrange
    obtain ⟨s, hrun, hok, hcall, hknown⟩ := sealSteps_run (n := n) (by omega) hsmall hle
    have hplace : ∀ i v, (keyRun c.1 c.2)[i]? = some v → s.known (x.off + i) = some v := by
      intro i v hv
      refine hknown _ v ?_
      have hlt := (List.getElem?_eq_some_iff.mp hv).1
      rw [← hbytes, getElem?_slice (by omega)] at hv
      exact hv
    refine ⟨_, s, he, ?_, ?_, hrun, ?_, ?_⟩
    · rw [hentry.keyOf]
      rfl
    · rw [hentry.runOf h.vals]
      rfl
    · rw [hentry.keyOf, hlen]
      have hread := hok.good.reads 0 n 0 hcall x.off c.1 (by omega) (fun i v hv => ?_)
      · rwa [Nat.zero_add] at hread
      · rw [Nat.zero_add]
        refine hplace i v ?_
        rw [keyRun, List.getElem?_append_left (List.getElem?_eq_some_iff.mp hv).1]
        exact hv
    · rw [hentry.runOf h.vals, hfrun]
      have hread := run_of_known (p := x.off + c.1.length) (l := c.2) hok hcall (by omega) (fun i v hv => ?_)
      · rwa [Nat.zero_add] at hread
      · rw [Nat.zero_add, Nat.add_assoc]
        refine hplace _ v ?_
        rw [keyRun, List.getElem?_append_right (by omega), Nat.add_sub_cancel_left]
        exact hv

/-- **The arena under any interleaving**, of calls that make the tail wrap over none of their tries:
in every state the ranges returned are apart and each lies in one block that is there, so that no
read and no write of a part of one stops, and a call left alone ends within four tries.  A run that
a call copies there reads back as the whole chain of its entry, oldest chunk first, whatever runs
between its writes; and so do the key and the run of every entry that a seal copies, of any table,
whose copy does not outgrow what was reserved for it. -/
theorem snapArena_safe (hashOf : Bytes → UInt64) (bytes : ℕ) {ops : List SnapOp} {s : SnapState}
    (hmeets : (SnapState.new bytes).MeetsAll ops) (hrun : (SnapState.new bytes).run ops = some s) :
    s.Good ∧ ∀ (writes : List TableOp) (t : HashedTable), HashedTable.new.run hashOf writes
      = some t → (∀ e ∈ t.entries, ∃ r n ws, t.runOf e = some r ∧ t.copyRun e = some (n, ws) ∧
        ∀ j off more s', s.calls[j]? = some (.got n off) → s.MeetsAll more → s.run more = some s' →
          more.filterMap (SnapOp.writeOf j) = ws → s'.arena.run off = some r) ∧
      ∀ order, order.Perm (List.range t.entries.length) → t.fromFrozen order = some none ∨
        ∃ copy, t.fromFrozen order = some (some copy) ∧ copy.ents.map SnapKey.frozen = order ∧
          ∀ x ∈ copy.ents, ∃ e s, t.entries[x.frozen]? = some e ∧ (t.keyOf e).isSome = true ∧
            (t.runOf e).isSome = true ∧
            (SnapState.new (t.keys.used + t.vals.used + 8 * order.length)).run
              (sealSteps (t.keys.used + t.vals.used + 8 * order.length) copy.arena) = some s ∧
            s.arena.slice x.off x.len = t.keyOf e ∧ s.arena.run x.frun = t.runOf e := by
  have hok := (SnapState.new_ok bytes).run hmeets hrun
  refine ⟨hok.good, fun writes t htable => ?_⟩
  obtain ⟨cs, hgrown⟩ := HashedTable.Grown.new_grown.run htable
  refine ⟨fun e he => ?_, fun order hperm => fromFrozen_reads hgrown hperm⟩
  obtain ⟨i, hi⟩ := List.mem_iff_getElem?.mp he
  have hlt : i < cs.length := by
    rw [← hgrown.length]
    exact (List.getElem?_eq_some_iff.mp hi).1
  have hc := List.getElem?_eq_getElem hlt
  generalize cs[i] = c at hc
  have hentry := hgrown.entry i e c hi hc
  obtain ⟨ws, hcopy, hrow, hflat⟩ := hentry.copyRun hgrown.vals
  refine ⟨_, _, ws, hentry.runOf hgrown.vals, hcopy, fun j off more s' hj hmore hrun' hws => ?_⟩
  obtain ⟨hj', hknown⟩ := known_of_run hok hmore hrun' hj
  rw [hws] at hknown
  have hread := run_of_known (p := 0) (l := c.2) (hok.run hmore hrun') hj' (by omega)
    (fun x v hv => ?_)
  · exact hread
  · have hlen := (List.getElem?_eq_some_iff.mp hv).1
    simp only [List.length_append, length_leBytes] at hlen
    rw [hknown _ (by omega) (by omega), overlayAll_eq s.known hrow, hflat]
    exact overlay_written s.known hv

/-- Two calls interleaved, the second over the end of the first block; parts of both written; and a
third. -/
def fewCalls : List SnapOp :=
  [.call 3000, .call 2000, .take 0, .take 1, .look 0, .take 1, .publish 0, .look 1, .write 0 1 [7],
    .publish 1, .write 1 1998 [8, 9], .call 5, .take 2, .look 2, .write 2 0 [1, 2, 3, 4, 5]]

/-- The second call ends at its second try, in the second block. -/
theorem snapArena_safe_few : ∃ s, (SnapState.new 0).run fewCalls = some s ∧
    s.calls = [.got 3000 0, .got 2000 5000, .got 5 7000] ∧ s.Good := by
  have hmeets : (SnapState.new 0).MeetsAll fewCalls := by decide +kernel
  have hcalls : ((SnapState.new 0).run fewCalls).map SnapState.calls
      = some [.got 3000 0, .got 2000 5000, .got 5 7000] := by
    decide +kernel
  obtain ⟨s, hrun, hcalls⟩ := Option.map_eq_some_iff.mp hcalls
  exact ⟨s, hrun, hcalls, (snapArena_safe (fun _ => 7) 0 hmeets hrun).1⟩
/-- **A tail that wraps gives two calls the same byte**: behind a byte reserved, `2 ^ 64 - 1` bytes
asked for pass the test of what the arena addresses, and bring the tail back to where it began. -/
theorem snapArena_strays : ∃ s, (SnapState.new 0).run
    [.call 1, .take 0, .look 0, .publish 0, .call (2 ^ 64 - 1), .take 1, .look 1, .call 1, .take 2,
      .look 2] = some s ∧ s.calls = [.got 1 0, .got (2 ^ 64 - 1) 1, .got 1 0] ∧ ¬ s.Good := by
  have hcalls : ((SnapState.new 0).run [.call 1, .take 0, .look 0, .publish 0, .call (2 ^ 64 - 1), .take 1, .look 1,
      .call 1, .take 2, .look 2]).map SnapState.calls
      = some [.got 1 0, .got (2 ^ 64 - 1) 1, .got 1 0] := by
    decide +kernel
  obtain ⟨s, hrun, hcalls⟩ := Option.map_eq_some_iff.mp hcalls
  refine ⟨s, hrun, hcalls, fun h => ?_⟩
  have hapart := h.apart 0 2 1 0 1 0 (by decide) (by rw [hcalls]; rfl) (by rw [hcalls]; rfl)
    (by decide) (by decide)
  exact absurd hapart (by decide)

end Supdb

import Supdb.PieceRead

/-!
# What a merge's second pass writes

The second pass visits every rank once and hands each the entry its key comes to, or nothing where
nothing is live.  Over the ranks of one piece the **emitter** is a writer opened, given those
entries in order, and finished (`emit_piece`).

A **piece merge** is one such piece.  Its output says of every key what its inputs say of it
together, masking included, so it stands for them between any older and any newer sources, and it is
read back of the piece where runs can lie in the records (`tierRun_transparent`).
-/

namespace Supdb

open StorageLib

/-! ## The emitter over one piece -/

namespace Emitter

/-- A rank visited: its entry written, or passed over. -/
def emit (env : MergeEnv) (em : Emitter) : Option Entry → Except String Emitter
  | none => em.skip env
  | some e => em.keyWith env e.key e.tomb e.values

/-- What a visited rank does to the piece's writer. -/
def written (env : MergeEnv) (w : PieceWriter) : Option Entry → Except String PieceWriter
  | none => .ok w
  | some e => w.entry env.lz e

variable {env : MergeEnv} {em : Emitter} {p : Piece} {w : PieceWriter}

/-- The writer a visited rank finds: a fresh one at the piece's first rank. -/
def Opens (env : MergeEnv) (em : Emitter) (p : Piece) (w : PieceWriter) : Prop :=
  if em.r = p.start then w = .create env.opts else em.w = some w

lemma enter_eq (hp : em.pieces[em.pi]? = some p) (hlo : p.start ≤ em.r) (hhi : em.r < p.stop)
    (hw : em.Opens env p w) {k : Option Bytes} (hk : ∀ x ∈ k, p.name.fence.Holds x) :
    em.enter env k = .ok ({ em with w := some w }, p.stop) := by
  have hfence : ¬ k.any (fun k => (p.name.fence.1 ≠ [] ∧ k < p.name.fence.1) ∨
      p.name.fence.2.any (fun h => h ≤ k)) = true := by
    intro h
    obtain ⟨x, rfl, hout⟩ := (Option.any_eq_true _ _).mp h
    obtain ⟨hlo, hhi⟩ := hk x rfl
    simp only [decide_eq_true_eq] at hout
    rcases hout with ⟨-, hlt⟩ | hge
    · exact absurd hlt (not_lt_of_ge hlo)
    · cases hb : p.name.fence.2 with
      | none => rw [hb] at hge; simp at hge
      | some b =>
          rw [hb] at hge
          exact absurd (hhi b hb) (not_lt_of_ge (by simpa using hge))
  rw [enter, hp]
  simp only
  rw [if_neg (by omega), if_neg hfence]
  rw [Opens] at hw
  by_cases hr : em.r = p.start
  · rw [if_pos hr] at hw
    rw [if_pos hr, hw]
  · rw [if_neg hr] at hw
    rw [if_neg hr, ← hw]

/-- A rank of the piece visited. -/
lemma emit_eq (hp : em.pieces[em.pi]? = some p) (hlo : p.start ≤ em.r) (hhi : em.r < p.stop)
    (hw : em.Opens env p w) {o : Option Entry} (ho : ∀ e ∈ o, p.name.fence.Holds e.key) :
    em.emit env o
      = written env w o >>= fun w' => ({ em with w := some w' }).leave env p.stop := by
  cases o with
  | none =>
      rw [emit, skip, enter_eq hp hlo hhi hw (k := none) (by simp)]
      rfl
  | some e =>
      have hk : ∀ x ∈ some e.key, p.name.fence.Holds x := by
        intro x hx
        rw [← Option.some.inj hx]
        exact ho e rfl
      rw [emit, keyWith, enter_eq hp hlo hhi hw hk]
      simp only [written, PieceWriter.entry, bind_assoc]
      rfl

/-- **The ranks of one piece.**  Visited from any of them to the last, they write their entries
after what the piece's writer holds, and finish it. -/
lemma emit_piece (os : List (Option Entry)) (hne : os ≠ []) (hp : em.pieces[em.pi]? = some p)
    (hlo : p.start ≤ em.r) (hstop : em.r + os.length = p.stop) (hw : em.Opens env p w)
    (hos : ∀ o ∈ os, ∀ e ∈ o, p.name.fence.Holds e.key) :
    os.foldlM (emit env) em =
      os.reduceOption.foldlM (PieceWriter.entry env.lz) w >>= fun w =>
        finishPiece env p.name w >>= fun o =>
          .ok { em with r := p.stop, w := none, out := em.out ++ [o], pi := em.pi + 1 } := by
  induction os generalizing em w with
  | nil => exact absurd rfl hne
  | cons o os ih =>
      have hlen : em.r + 1 + os.length = p.stop := by
        rw [List.length_cons] at hstop
        omega
      have hsplit : ∀ {β : Type} (f : PieceWriter → Except String β),
          ((o :: os).reduceOption.foldlM (PieceWriter.entry env.lz) w >>= f)
            = written env w o >>= fun w' =>
              os.reduceOption.foldlM (PieceWriter.entry env.lz) w' >>= f := by
        intro β f
        cases o with
        | none => rw [List.reduceOption_cons_of_none]; rfl
        | some e => rw [List.reduceOption_cons_of_some, List.foldlM_cons, bind_assoc]; rfl
      rw [List.foldlM_cons, emit_eq hp hlo (by omega) hw (hos o (List.mem_cons_self ..)),
        bind_assoc, hsplit]
      congr 1
      funext w'
      cases os with
      | nil =>
          have hr : em.r + 1 = p.stop := hlen
          simp only [leave, hr, if_true, hp, List.reduceOption_nil, List.foldlM_nil, pure_bind,
            bind_pure]
      | cons o' os =>
          have hr : ¬ em.r + 1 = p.stop := by
            rw [List.length_cons] at hlen
            omega
          have hopen : Opens env { em with r := em.r + 1, w := some w' } p w' := by
            rw [Opens, if_neg (by simp only; omega)]
          have := @ih { em with r := em.r + 1, w := some w' } w' (List.cons_ne_nil _ _) hp
            (by simp only; omega) hlen hopen (fun x hx => hos x (List.mem_cons_of_mem _ hx))
          simp only [leave, hr, if_false]
          exact this

end Emitter

/-! ## A piece merge -/

section Tier

variable {inputs : List Input}

/-- What a piece merge writes for a key: what the inputs say of it together, masking included, and
nothing where they say nothing. -/
def tierEntry (inputs : List Input) (k : Bytes) : Option Entry :=
  if (merged inputs k).vals.length = 0 ∧ (merged inputs k).masks = false then none
  else some ⟨k, (merged inputs k).vals, (merged inputs k).masks⟩

lemma key_of_tierEntry {k : Bytes} {e : Entry} (h : tierEntry inputs k = some e) : e.key = k := by
  rw [tierEntry] at h
  split_ifs at h
  rw [← Option.some.inj h]

/-- A key of the walk is written as the inputs together say. -/
lemma tierKey_eq (hok : ∀ s ∈ inputs, s.Ok) (env : MergeEnv) (em : Emitter) (k : Bytes) :
    tierKey env inputs em k (tiedOf (inputs.map Input.keys) k)
      = em.emit env (tierEntry inputs k) := by
  obtain ⟨start, -, hg, hv⟩ := gather_spec _ (tiedEntry_tiedOf hok k)
  rw [← merged_eq_tied hok] at hg hv
  rw [tierKey, hg, tierEntry]
  simp only [bind, Except.bind, hv]
  split_ifs with h
  · rfl
  · rfl

lemma foldlM_count {α : Type} (l : List α) (n : ℕ) :
    l.foldlM (fun (t : ℕ) (_ : α) => (Except.ok (t + 1) : Except String ℕ)) n
      = .ok (n + l.length) := by
  induction l generalizing n with
  | nil => rfl
  | cons a l ih =>
      rw [List.foldlM_cons, List.length_cons]
      change l.foldlM _ (n + 1) = _
      rw [ih, Nat.add_right_comm, Nat.add_assoc]

/-- The piece a piece merge writes. -/
def tierEntries (inputs : List Input) : List Entry :=
  ((allKeys inputs).map (tierEntry inputs)).reduceOption

lemma mem_tierEntries {e : Entry} :
    e ∈ tierEntries inputs ↔ e.key ∈ allKeys inputs ∧ tierEntry inputs e.key = some e := by
  rw [tierEntries, List.reduceOption_mem_iff, List.mem_map]
  constructor
  · rintro ⟨k, hk, h⟩
    rw [key_of_tierEntry h]
    exact ⟨hk, h⟩
  · rintro ⟨hk, h⟩
    exact ⟨_, hk, h⟩

/-- The piece's keys increase. -/
lemma pairwise_tierEntries (inputs : List Input) :
    ((tierEntries inputs).map Entry.key).Pairwise (· < ·) := by
  have hkeys : (tierEntries inputs).map Entry.key
      = (allKeys inputs).filter (fun k => (tierEntry inputs k).isSome) := by
    rw [tierEntries]
    induction allKeys inputs with
    | nil => rfl
    | cons k ks ih =>
        rw [List.map_cons]
        cases h : tierEntry inputs k with
        | none =>
            rw [List.reduceOption_cons_of_none, ih, List.filter_cons_of_neg (by simp [h])]
        | some e =>
            rw [List.reduceOption_cons_of_some, List.map_cons, ih, key_of_tierEntry h,
              List.filter_cons_of_pos (by simp [h])]
  rw [hkeys]
  exact (pairwise_allKeys inputs).filter _

/-- No input speaks of a key no input holds. -/
lemma merged_of_not_mem {k : Bytes} (hk : ¬ k ∈ allKeys inputs) : merged inputs k = 1 := by
  rw [merged]
  refine List.prod_eq_one (fun d hd => ?_)
  obtain ⟨s, hs, rfl⟩ := List.mem_map.mp hd
  have hnone : s.entries.find? (fun e => e.key = k) = none := by
    rw [List.find?_eq_none]
    intro e he hek
    refine hk (mem_allKeys.mpr ⟨s.keys, List.mem_map_of_mem hs, ?_⟩)
    rw [← (by simpa using hek : e.key = k)]
    exact List.mem_map_of_mem he
  rw [deltaIn, hnone]

/-- **The piece says what its inputs say.** -/
lemma deltaIn_tierEntries (inputs : List Input) (k : Bytes) :
    deltaIn (tierEntries inputs) k = merged inputs k := by
  by_cases h : k ∈ allKeys inputs ∧ (tierEntry inputs k).isSome
  · obtain ⟨hk, h⟩ := h
    obtain ⟨e, he⟩ := Option.isSome_iff_exists.mp h
    have hek := key_of_tierEntry he
    have hmem : e ∈ tierEntries inputs := mem_tierEntries.mpr ⟨by rwa [hek], by rwa [hek]⟩
    obtain ⟨r, hr⟩ := List.mem_iff_getElem?.mp hmem
    have hfind := find?_of_getElem? (pairwise_tierEntries inputs) hr
    rw [hek] at hfind
    rw [deltaIn, hfind]
    rw [tierEntry] at he
    split_ifs at he
    rw [← Option.some.inj he]
  · have hnone : (tierEntries inputs).find? (fun e => e.key = k) = none := by
      rw [List.find?_eq_none]
      intro e he hek
      have hek : e.key = k := by simpa using hek
      obtain ⟨hk, he⟩ := mem_tierEntries.mp he
      rw [hek] at hk he
      exact h ⟨hk, by rw [he]; rfl⟩
    rw [deltaIn, hnone]
    by_cases hk : k ∈ allKeys inputs
    · have hsay : ¬ (tierEntry inputs k).isSome := fun hs => h ⟨hk, hs⟩
      rw [tierEntry] at hsay
      split_ifs at hsay with hd
      · exact (Delta.eq_one hd.2 (List.length_eq_zero_iff.mp hd.1)).symm
      · exact absurd rfl hsay
    · exact (merged_of_not_mem hk).symm

/-- **The output of a piece merge.**  Its inputs hold no key and there is none, or it is the one
piece that holds what they come to. -/
lemma tierRun_eq (hok : ∀ s ∈ inputs, s.Ok) (env : MergeEnv) (plan : TierPlan)
    (hfence : ∀ s ∈ inputs, ∀ k ∈ s.keys, plan.fence.Holds k) :
    tierRun env plan inputs =
      if allKeys inputs = [] then .ok []
      else
        writePiece env ⟨.pcs, plan.id, plan.endSeq, plan.fence⟩ (tierEntries inputs) >>= fun o =>
          .ok [o] := by
  have hhold : ∀ k ∈ allKeys inputs, plan.fence.Holds k := by
    intro k hk
    obtain ⟨l, hl, hk⟩ := mem_allKeys.mp hk
    obtain ⟨s, hs, rfl⟩ := List.mem_map.mp hl
    exact hfence s hs k hk
  rw [tierRun, mergeRanks_eq hok, foldlM_count, Nat.zero_add]
  simp only [bind, Except.bind]
  by_cases hnil : allKeys inputs = []
  · rw [if_pos hnil, if_pos (by rw [hnil]; rfl)]
  · have hlen : ¬ (allKeys inputs).length = 0 := fun h => hnil (List.length_eq_zero_iff.mp h)
    rw [if_neg hlen, if_neg hnil, mergeRanks_eq hok]
    simp only [tierKey_eq hok]
    set em : Emitter :=
      ⟨[⟨0, (allKeys inputs).length, ⟨.pcs, plan.id, plan.endSeq, plan.fence⟩⟩], 0,
      0, none, []⟩ with hem
    have hfold : (allKeys inputs).foldlM (fun em k => em.emit env (tierEntry inputs k)) em
        = ((allKeys inputs).map (tierEntry inputs)).foldlM (Emitter.emit env) em := by
      rw [List.foldlM_map]
    have hpiece := @Emitter.emit_piece env em _ (.create env.opts)
      ((allKeys inputs).map (tierEntry inputs)) (by simpa using hnil) rfl (Nat.le_refl 0)
      (by simp [hem]) (by rw [Emitter.Opens]; rfl) ?_
    · rw [hfold, hpiece, writePiece, ← tierEntries]
      simp only [bind, Except.bind]
      cases (tierEntries inputs).foldlM (PieceWriter.entry env.lz) (.create env.opts) with
      | error e => rfl
      | ok w =>
          simp only
          cases Emitter.finishPiece env ⟨.pcs, plan.id, plan.endSeq, plan.fence⟩ w with
          | error e => rfl
          | ok o => simp [Emitter.finish, hem]
    · intro o ho e he
      obtain ⟨k, hk, rfl⟩ := List.mem_map.mp ho
      rw [key_of_tierEntry he]
      exact hhold k hk

/-- Entries that stand for the inputs of a merge: in key order, inside its fence, and between any
older and any newer sources they leave of every key what the inputs leave of it. -/
structure StandsFor (fence : Fence) (inputs : List Input) (entries : List Entry) : Prop where
  sorted : (entries.map Entry.key).Pairwise (· < ·)
  inFence : ∀ e ∈ entries, fence.Holds e.key
  transparent : ∀ (older newer : List (List Entry)) (k : Bytes),
    ((older ++ inputs.map Input.entries ++ newer).map (deltaIn · k)).prod.vals
      = ((older ++ [entries] ++ newer).map (deltaIn · k)).prod.vals

/-- The name a piece merge gives its output. -/
def TierPlan.name (plan : TierPlan) : SegName := ⟨.pcs, plan.id, plan.endSeq, plan.fence⟩

/-- A piece merge that is transparent: where its inputs hold no key it writes nothing, else one
piece, and what is read back of the piece stands for the inputs. -/
def Transparent (env : MergeEnv) (plan : TierPlan) (inputs : List Input) : Prop :=
  ∃ entries, StandsFor plan.fence inputs entries ∧
    if ∀ s ∈ inputs, s.entries = [] then tierRun env plan inputs = .ok []
    else ∃ o, tierRun env plan inputs = .ok [o] ∧ o.name = plan.name ∧
      PieceHolds env.lz env.opts.checksums o.file o.ord entries

/-- Inputs a piece merge is asked to replace: opened, and inside its fence. -/
def TierPlan.Asks (plan : TierPlan) (inputs : List Input) : Prop :=
  (∀ s ∈ inputs, s.Ok) ∧ ∀ s ∈ inputs, ∀ k ∈ s.keys, plan.fence.Holds k

lemma allKeys_eq_nil_iff : allKeys inputs = [] ↔ ∀ s ∈ inputs, s.entries = [] := by
  rw [List.eq_nil_iff_forall_not_mem]
  constructor
  · intro h s hs
    refine List.eq_nil_iff_forall_not_mem.mpr (fun e he => h e.key ?_)
    exact mem_allKeys.mpr ⟨s.keys, List.mem_map_of_mem hs, List.mem_map_of_mem he⟩
  · intro h k hk
    obtain ⟨l, hl, hk⟩ := mem_allKeys.mp hk
    obtain ⟨s, hs, rfl⟩ := List.mem_map.mp hl
    rw [Input.keys, h s hs] at hk
    exact absurd hk (by simp)

lemma standsFor_tierEntries {fence : Fence} (hfence : ∀ s ∈ inputs, ∀ k ∈ s.keys, fence.Holds k) :
    StandsFor fence inputs (tierEntries inputs) := by
  refine ⟨pairwise_tierEntries inputs, fun e he => ?_, fun older newer k => ?_⟩
  · obtain ⟨l, hl, hk⟩ := mem_allKeys.mp (mem_tierEntries.mp he).1
    obtain ⟨s, hs, rfl⟩ := List.mem_map.mp hl
    exact hfence s hs _ hk
  · have hinputs : ((inputs.map Input.entries).map (deltaIn · k)).prod = merged inputs k := by
      rw [List.map_map]
      rfl
    simp only [List.map_append, List.prod_append, hinputs, List.map_singleton, List.prod_singleton,
      deltaIn_tierEntries]

/-- What a piece merge writes, whether its writer takes it or not. -/
lemma TierPlan.Asks.tierRun_eq {plan : TierPlan} (h : plan.Asks inputs) (env : MergeEnv) :
    tierRun env plan inputs =
      if ∀ s ∈ inputs, s.entries = [] then .ok []
      else writePiece env plan.name (tierEntries inputs) >>= fun o => .ok [o] := by
  rw [Supdb.tierRun_eq h.1 env plan h.2]
  simp only [allKeys_eq_nil_iff]
  rfl

/-- A piece merge over entries its writer takes and a reader can read. -/
lemma TierPlan.Asks.transparent {plan : TierPlan} (h : plan.Asks inputs) {env : MergeEnv}
    (hclaims : env.host.Claims) (hsize : env.opts.blockSize < 2 ^ 32)
    (hw : Writable env.opts (tierEntries inputs))
    (hruns : 0 < env.opts.inlineMax ∨ ∀ e ∈ tierEntries inputs, e.values ≠ []) :
    Transparent env plan inputs := by
  refine ⟨tierEntries inputs, standsFor_tierEntries h.2, ?_⟩
  rw [h.tierRun_eq env]
  split_ifs with hnone
  · rfl
  · obtain ⟨o, ho, hname, hholds⟩ := writePiece_ok env hclaims hsize plan.name hw hruns
    exact ⟨o, by rw [ho]; rfl, hname, hholds⟩

/-- One input, a piece that deletes a key. -/
def deletedInput : Input := ⟨deletedOne, none⟩

lemma tierEntries_deleted : tierEntries [deletedInput] = deletedOne := by
  simp [tierEntries, allKeys, deletedInput, deletedOne, Input.keys, tierEntry, merged, deltaIn]

lemma asks_deleted (id endSeq : ℕ) :
    (⟨id, endSeq, ([], none), true⟩ : TierPlan).Asks [deletedInput] := by
  constructor
  · intro s hs
    rw [List.mem_singleton.mp hs]
    exact ⟨by decide, by simp [deletedInput]⟩
  · intro s _ k _
    exact ⟨nil_le k, by simp⟩

/-- Where no run lies in a record, the merge of a piece that deletes a key is not. -/
lemma not_transparent_deleted {env : MergeEnv} (hclaims : env.host.Claims)
    (hsize : env.opts.blockSize < 2 ^ 32) (hmax : env.opts.inlineMax = 0) (id endSeq : ℕ) :
    ¬ Transparent env ⟨id, endSeq, ([], none), true⟩ [deletedInput] := by
  rintro ⟨entries, -, hrun⟩
  obtain ⟨o, ho, hnot⟩ := not_pieceHolds_of_deleted env hclaims hsize hmax
    (TierPlan.name ⟨id, endSeq, ([], none), true⟩)
  rw [if_neg (by decide), (asks_deleted id endSeq).tierRun_eq env, if_neg (by decide),
    tierEntries_deleted, ho] at hrun
  obtain ⟨o', ho', -, hholds⟩ := hrun
  cases ho'
  exact hnot entries hholds

/-- **A piece merge is transparent** exactly where runs can lie in the records.  What it hands its
writer stands for its inputs in any case; what the writer takes is read back of the piece where runs
can lie in the records or every key has a value; and a key that is only deleted is lost to a reader
where they cannot. -/
theorem tierRun_transparent (env : MergeEnv) (hclaims : env.host.Claims)
    (hsize : env.opts.blockSize < 2 ^ 32) :
    (∀ plan inputs, plan.Asks inputs → StandsFor plan.fence inputs (tierEntries inputs) ∧
      tierRun env plan inputs =
        if ∀ s ∈ inputs, s.entries = [] then .ok []
        else writePiece env plan.name (tierEntries inputs) >>= fun o => .ok [o]) ∧
    (∀ plan inputs, plan.Asks inputs → Writable env.opts (tierEntries inputs) →
      (0 < env.opts.inlineMax ∨ ∀ e ∈ tierEntries inputs, e.values ≠ []) →
        Transparent env plan inputs) ∧
    ((∀ plan inputs, plan.Asks inputs → Writable env.opts (tierEntries inputs) →
      Transparent env plan inputs) ↔ 0 < env.opts.inlineMax) := by
  refine ⟨fun plan inputs h => ⟨standsFor_tierEntries h.2, h.tierRun_eq env⟩,
    fun plan inputs h hw hruns => h.transparent hclaims hsize hw hruns, fun hall => ?_,
    fun hpos plan inputs h hw => h.transparent hclaims hsize hw (Or.inl hpos)⟩
  by_contra hmax
  have hmax : env.opts.inlineMax = 0 := by omega
  refine not_transparent_deleted hclaims hsize hmax 3 5 (hall _ _ (asks_deleted 3 5) ?_)
  rw [tierEntries_deleted]
  exact writable_deletedOne hmax

/-- Settings: blocks of 4096 bytes, runs of up to `inlineMax` in their records. -/
def tierEnv (inlineMax : ℕ) : MergeEnv :=
  ⟨⟨Nat.succPNat 15, fun _ i => i, 0⟩, ⟨id, fun b _ => some b⟩,
    ⟨4096, inlineMax, 0, false, true, false, true, true⟩⟩

lemma claims_tierEnv (inlineMax : ℕ) : (tierEnv inlineMax).host.Claims := by
  intro n
  exact (List.map_id _).symm ▸ List.Perm.refl _

/-- A source older than two pieces. -/
def olderOne : List Entry := [⟨[1], [[9]], false⟩]

/-- Two pieces, the newer deleting a key that the older holds. -/
def twoInputs : List Input :=
  [⟨[⟨[1], [[8]], false⟩], none⟩, ⟨[⟨[1], [], true⟩, ⟨[2], [[7]], false⟩], none⟩]

lemma tierEntries_two : tierEntries twoInputs = [⟨[1], [], true⟩, ⟨[2], [[7]], false⟩] := by
  have hkeys : allKeys twoInputs = [[1], [2]] := by
    rw [allKeys, twoInputs]
    simp +decide [Input.keys, List.mergeSort, List.MergeSort.Internal.splitInTwo]
  rw [tierEntries, hkeys]
  decide

/-- Two pieces merged over an older one: what is read back of the piece deletes the key that all
three hold. -/
theorem tierRun_transparent_delete :
    ∃ o entries, tierRun (tierEnv 64) ⟨3, 5, ([], none), true⟩ twoInputs = .ok [o] ∧
      PieceHolds (tierEnv 64).lz true o.file o.ord entries ∧
      (([olderOne] ++ twoInputs.map Input.entries ++ []).map (deltaIn · [1])).prod.vals
        = (([olderOne] ++ [entries] ++ []).map (deltaIn · [1])).prod.vals := by
  have hasks : (⟨3, 5, ([], none), true⟩ : TierPlan).Asks twoInputs := by
    constructor
    · intro s hs
      fin_cases hs
      · exact ⟨by decide, by simp⟩
      · exact ⟨by decide, by simp⟩
    · intro s _ k _
      exact ⟨nil_le k, by simp⟩
  have hwritable : Writable (tierEnv 64).opts (tierEntries twoInputs) := by
    rw [tierEntries_two]
    refine ⟨by decide, fun e he => ?_, by decide⟩
    fin_cases he
    · exact ⟨by decide, by decide, by decide⟩
    · exact ⟨by decide, by decide, by decide⟩
  obtain ⟨-, -, hiff⟩ := tierRun_transparent (tierEnv 64) (claims_tierEnv 64) (by decide)
  obtain ⟨entries, hstands, hrun⟩ := hiff.mpr (by decide) _ _ hasks hwritable
  rw [if_neg (by decide)] at hrun
  obtain ⟨o, ho, -, hholds⟩ := hrun
  exact ⟨o, entries, ho, hholds, hstands.transparent _ _ _⟩

/-- **With no run in a record, a deleted key is lost**: the merge of a piece that deletes one key is
not transparent. -/
theorem tierRun_deleted_unread : (⟨3, 5, ([], none), true⟩ : TierPlan).Asks [deletedInput] ∧
    Writable (tierEnv 0).opts (tierEntries [deletedInput]) ∧
    ¬ Transparent (tierEnv 0) ⟨3, 5, ([], none), true⟩ [deletedInput] := by
  refine ⟨asks_deleted 3 5, ?_, not_transparent_deleted (claims_tierEnv 0) (by decide) rfl 3 5⟩
  rw [tierEntries_deleted]
  exact writable_deletedOne rfl

end Tier

end Supdb

import Supdb.MergeWalk
import Supdb.OrdSeekExact
import Supdb.PieceFinish

/-!
# A piece read back

Merges and seals write their pieces by a `PieceWriter`, which keeps the keys beside the segment and
composes the piece's ordered index from them.

* `Blob.delta` – what a read of the store takes from a segment for a key: its values, and whether
  its extents mask what is older.
* `Blob.Answers` – a segment that answers as its entries say, by rank and by key.
* `PieceHolds` – a piece that holds entries: its file opens, wherever it is mapped and whatever the
  reader checks, the segment answers as they say, and the ordered index finds every key's rank.
* `PieceTaken.finish`, `writePiece_ok` – **entries within the format's limits are written, and the
  piece holds them**, where no run of them is empty or runs can lie in the records.
* `not_pieceHolds_of_deleted` – what becomes of an empty run where they cannot: it is given a place
  in a block, and there may be none.
-/

namespace Supdb

open StorageLib Flatindex Run

/-! ## What a segment answers -/

namespace Blob

/-- What a read of the store takes from a segment for a key. -/
def delta (lz : Lz4) (b : Blob) (key : Bytes) : Run ChunkErr (Delta Bytes) := do
  let vals ← b.readAll lz key
  ok ⟨(b.lookupFull key).any (fun r => r.1.any Ext.isTombstone), vals⟩

/-- A segment that answers as its entries say: by rank, as the cursors of a merge ask it, and by
key. -/
structure Answers (lz : Lz4) (b : Blob) (entries : List Entry) : Prop where
  keys : b.keys = entries.length
  keyAt : ∀ r, b.keyAt r = (entries.map Entry.key)[r]?
  extsAt : ∀ {r : ℕ} {e : Entry}, entries[r]? = some e → ∃ exts, b.extsAt r = some (e.key, exts) ∧
    (exts.map Ext.records).sum = e.values.length ∧ exts.any Ext.isTombstone = e.tomb
  valuesAt : ∀ {r : ℕ} {e : Entry}, entries[r]? = some e → b.valuesAt lz r = ok e.values
  delta : ∀ k, b.delta lz k = ok (deltaIn entries k)

end Blob

section Answers

variable {inlineMax : ℕ} {checksums : Bool} {blocks : List Bytes} {recs : List FlatEntry}
  {entries : List Entry} {file : Bytes} {checksumsOn : Bool} {opts : BlobOptions} {addr : ℕ}

/-- A key's entry and its record are found together. -/
lemma find?_recOf (h : List.Forall₂ (RecOf inlineMax blocks) entries recs) (k : Bytes) :
    Option.Rel (RecOf inlineMax blocks) (entries.find? (fun e => e.key = k))
      (recs.find? (fun f => f.key = k)) := by
  induction h with
  | nil => exact .none
  | @cons e f es fs hf _ ih =>
      by_cases hk : e.key = k
      · rw [List.find?_cons_of_pos (by simpa using hk),
          List.find?_cons_of_pos (by simpa [hf.key] using hk)]
        exact .some hf
      · rw [List.find?_cons_of_neg (by simpa using hk),
          List.find?_cons_of_neg (by simpa [hf.key] using hk)]
        exact ih

/-- No run is empty but that of no value. -/
lemma runOf_ne_nil {vals : List Bytes} (h : vals ≠ []) : runOf vals ≠ [] := by
  have hlen := length_le_runOf vals
  have hpos := List.length_pos_iff.mpr h
  exact List.length_pos_iff.mp (by omega)

/-- **A segment's file answers as its entries say.** -/
lemma SegmentFile.answers (lz : Lz4) (f : SegmentFile checksums blocks recs file) (haddr : 8 ∣ addr)
    (hon : checksumsOn = true → checksums = true)
    (hrecs : List.Forall₂ (RecOf inlineMax blocks) entries recs) (hfits : ∀ e ∈ entries, e.Fits)
    (hsorted : (entries.map Entry.key).Pairwise (· < ·))
    (hruns : 0 < inlineMax ∨ ∀ e ∈ entries, e.values ≠ []) :
    (f.blob checksumsOn opts addr).Answers lz entries := by
  have hbase : 4 ∣ addr + f.sb.keyOff :=
    dvd_add ((by norm_num : 4 ∣ 8).trans haddr) f.keyAligned
  obtain ⟨v⟩ := f.reads.view hbase
  have hkeys := map_key_recOf hrecs
  have hread : ∀ {e : Entry} {x : FlatEntry}, e ∈ entries → RecOf inlineMax blocks e x →
      (f.blob checksumsOn opts addr).readExts lz x.tail x.exts = ok e.values :=
    fun he hx => f.readExts lz haddr hon hx (hfits _ he)
      (hruns.imp_right (fun h => runOf_ne_nil (h _ he)))
  have hrec : ∀ {r : ℕ} {e : Entry}, entries[r]? = some e →
      ∃ x, recs[r]? = some x ∧ RecOf inlineMax blocks e x := by
    intro r e he
    obtain ⟨hr, rfl⟩ := List.getElem?_eq_some_iff.mp he
    have hr' : r < recs.length := by rw [← hrecs.length_eq]; exact hr
    exact ⟨_, List.getElem?_eq_getElem hr', hrecs.get hr hr'⟩
  refine ⟨?_, fun r => ?_, fun {r e} he => ?_, fun {r e} he => ?_, fun k => ?_⟩
  · rw [hrecs.length_eq]
    exact v.nkeys
  · rw [← hkeys, List.getElem?_map]
    exact v.keyAt r
  · obtain ⟨x, hget, hx⟩ := hrec he
    have hat := v.atFull r
    rw [hget] at hat
    refine ⟨x.exts, ?_, hx.counts (hfits e (List.mem_of_getElem? he))⟩
    rw [← hx.key]
    exact congrArg (Option.map _) hat
  · obtain ⟨x, hget, hx⟩ := hrec he
    have hat := v.atFull r
    rw [hget] at hat
    rw [Blob.valuesAt]
    dsimp only [SegmentFile.blob]
    rw [hat]
    exact hread (List.mem_of_getElem? he) hx
  · have hfind := v.lookupFull (by rw [hkeys]; exact hsorted) k
    have hboth := find?_recOf hrecs k
    have hlookup : (f.blob checksumsOn opts addr).lookupFull k =
        (recs.find? (fun x => x.key = k)).map (fun x => (x.exts, x.tail)) := hfind
    rw [Blob.delta, Blob.readAll, hlookup, deltaIn]
    cases he : entries.find? (fun e => e.key = k) with
    | none =>
        rw [he] at hboth
        cases hx : recs.find? (fun x => x.key = k) with
        | none => rfl
        | some x =>
            rw [hx] at hboth
            cases hboth
    | some e =>
        rw [he] at hboth
        have hmem := List.mem_of_find?_eq_some he
        cases hx : recs.find? (fun x => x.key = k) with
        | none =>
            rw [hx] at hboth
            cases hboth
        | some x =>
            rw [hx] at hboth
            cases hboth with
            | some hrx =>
                dsimp only [Option.map_some]
                rw [hread hmem hrx, ok_bind, Option.any_some, (hrx.counts (hfits e hmem)).2]

end Answers

/-! ## A piece -/

/-- A piece that holds `entries`, written with checksums or without: its file opens and answers as
they say, and its ordered index gives the rank of any key. -/
def PieceHolds (lz : Lz4) (checksums : Bool) (file : Bytes) (ord : OrdIndex)
    (entries : List Entry) : Prop :=
  ∀ (checksumsOn : Bool) (opts : BlobOptions) (addr : ℕ), 8 ∣ addr →
    (checksumsOn = true → checksums = true) →
    ∃ b, Blob.openWith checksumsOn opts addr file = ok b ∧ b.Answers lz entries ∧
      ∀ q, ord.seek q b.keyAt = some (OrdIndex.rankOf (entries.map Entry.key) q)

/-- The seek of an index composed over keys in order. -/
lemma OrdIndex.seek_compose {keys : List Bytes} (hsorted : keys.Pairwise (· < ·)) (q : Bytes) :
    (compose keys).seek q (fun i => keys[i]?) = some (rankOf keys q) := by
  obtain ⟨e, w, hseek, hexact, -, -⟩ := (of_compose hsorted).seekExactHint_spec hsorted q
  rw [seek, seekExact, hseek]
  exact congrArg some hexact.rank

namespace PieceWriter

/-- An entry written. -/
def entry (lz : Lz4) (w : PieceWriter) (e : Entry) : Except String PieceWriter := do
  let w ← w.begin e.key
  (e.values.foldl PieceWriter.value w).endWith lz e.tomb

lemma foldl_value (vals : List Bytes) (w : PieceWriter) :
    vals.foldl PieceWriter.value w = ⟨vals.foldl SegmentWriter.value w.seg, w.keys⟩ := by
  induction vals generalizing w with
  | nil => rfl
  | cons v vals ih => exact ih (w.value v)

/-- An entry goes to the segment, and its key to the index. -/
lemma entry_eq (lz : Lz4) (w : PieceWriter) (e : Entry) :
    w.entry lz e = w.seg.addEntry lz e >>= fun seg => .ok ⟨seg, w.keys ++ [e.key]⟩ := by
  rw [entry, begin, SegmentWriter.addEntry]
  cases w.seg.begin e.key with
  | error msg => rfl
  | ok seg =>
      simp only [bind, Except.bind, foldl_value, endWith]

end PieceWriter

/-- A segment written from its entries. -/
def writePiece (env : MergeEnv) (name : SegName) (entries : List Entry) : Except String Output := do
  let w ← entries.foldlM (PieceWriter.entry env.lz) (.create env.opts)
  Emitter.finishPiece env name w

/-- A piece's writer that has taken `entries`. -/
structure PieceTaken (opts : WriterOptions) (entries : List Entry) (w : PieceWriter) : Prop where
  keys : w.keys = entries.map Entry.key
  taken : ∃ closed recs, SegmentTaken opts entries closed recs w.seg.layout.1

section Pieces

variable {opts : WriterOptions} {entries : List Entry} {w : PieceWriter} {e : Entry}

/-- The settings a piece's writer is created under. -/
def WriterOptions.piece (opts : WriterOptions) : WriterOptions :=
  { opts with headReserve := 0, compress := false, marks := false }

lemma WriterOptions.plain_piece (hsize : opts.blockSize < 2 ^ 32) : opts.piece.Plain :=
  ⟨rfl, rfl, rfl, hsize⟩

lemma Writable.piece (h : Writable opts entries) : Writable opts.piece entries :=
  ⟨h.sorted, h.fits, h.room⟩

/-- The entries before some others. -/
lemma Writable.init {more : List Entry} (h : Writable opts (entries ++ more)) :
    Writable opts entries := by
  obtain ⟨hsorted, hfits, hroom⟩ := h
  rw [List.map_append] at hsorted hroom
  exact ⟨(List.pairwise_append.mp hsorted).1, fun x hx => hfits x (List.mem_append_left _ hx),
    (recordBytesOf_le_append _ _ _ _).trans hroom⟩

lemma pieceTaken_create (hplain : opts.piece.Plain) : PieceTaken opts.piece [] (.create opts) :=
  ⟨rfl, [], [], taken_create hplain⟩

/-- **An entry is taken** behind the others. -/
lemma PieceTaken.entry (lz : Lz4) (hplain : opts.Plain) (h : PieceTaken opts entries w)
    (hw : Writable opts (entries ++ [e])) :
    ∃ w', w.entry lz e = .ok w' ∧ PieceTaken opts (entries ++ [e]) w' := by
  obtain ⟨closed, recs, htaken⟩ := h.taken
  obtain ⟨seg, closed', recs', hok, htaken'⟩ := htaken.addEntry lz hplain
    (hw.fits e (by simp)) hw.sorted hw.room
  refine ⟨⟨seg, w.keys ++ [e.key]⟩, ?_, ?_, closed', recs', htaken'⟩
  · rw [PieceWriter.entry_eq, hok]
    rfl
  · rw [h.keys, List.map_append]
    rfl

/-- **A list is taken**, each of it by a step that takes its entry. -/
lemma taken_run {σ α : Type} {step : σ → α → Except String σ} {entryOf : α → Entry}
    {P : List Entry → σ → Prop} {more : List α}
    (hstep : ∀ a ∈ more, ∀ entries s, P entries s → Writable opts (entries ++ [entryOf a]) →
      ∃ s', step s a = .ok s' ∧ P (entries ++ [entryOf a]) s')
    (s : σ) (h : P entries s) (hw : Writable opts (entries ++ more.map entryOf)) :
    ∃ s', more.foldlM step s = .ok s' ∧ P (entries ++ more.map entryOf) s' := by
  induction more generalizing entries s with
  | nil => exact ⟨s, rfl, by rw [List.map_nil, List.append_nil]; exact h⟩
  | cons a as ih =>
      obtain ⟨hfirst, hrest⟩ := List.forall_mem_cons.mp hstep
      have hsplit : entries ++ (a :: as).map entryOf = (entries ++ [entryOf a]) ++ as.map entryOf := by
        simp
      rw [hsplit] at hw ⊢
      obtain ⟨s', hok, htaken⟩ := hfirst entries s h hw.init
      obtain ⟨s'', hmore, hdone⟩ := ih hrest s' htaken hw
      exact ⟨s'', by rw [List.foldlM_cons, hok]; exact hmore, hdone⟩

/-- **The finished piece holds what its writer has taken.** -/
lemma PieceTaken.finish (host : Host) (hclaims : host.Claims) (lz : Lz4) (hplain : opts.Plain)
    (h : PieceTaken opts entries w) (hw : Writable opts entries)
    (hruns : 0 < opts.inlineMax ∨ ∀ e ∈ entries, e.values ≠ []) :
    ∃ file ord, w.finish host lz = .ok (file, ord) ∧
      PieceHolds lz opts.checksums file ord entries := by
  obtain ⟨closed, recs, htaken⟩ := h.taken
  obtain ⟨file, blocks, hok, hrecs, -, ⟨f⟩⟩ :=
    htaken.finish host hclaims lz hplain (by norm_num : 1 < 2 ^ 64) hw.room
  refine ⟨file, OrdIndex.compose w.keys, ?_, fun checksumsOn bopts addr haddr hon => ?_⟩
  · rw [PieceWriter.finish, hok]
    rfl
  · have hanswers := @SegmentFile.answers _ _ _ _ _ _ checksumsOn bopts _ lz f haddr hon hrecs hw.fits
      hw.sorted hruns
    refine ⟨_, f.openWith checksumsOn bopts haddr, hanswers, fun q => ?_⟩
    rw [funext hanswers.keyAt, h.keys]
    exact OrdIndex.seek_compose hw.sorted q

/-- Each of a list done with what is asked of it, all of it is. -/
lemma mapM_ok {α β : Type} {f : α → Except String β} {P : α → β → Prop} {l : List α}
    (h : ∀ a ∈ l, ∃ b, f a = .ok b ∧ P a b) : ∃ bs, l.mapM f = .ok bs ∧ List.Forall₂ P l bs := by
  induction l with
  | nil => exact ⟨[], rfl, .nil⟩
  | cons a l ih =>
      obtain ⟨⟨b, hb, hp⟩, hl⟩ := List.forall_mem_cons.mp h
      obtain ⟨bs, hbs, hall⟩ := ih hl
      refine ⟨b :: bs, ?_, .cons hp hall⟩
      rw [List.mapM_cons, hb, hbs]
      rfl

/-- **A piece is written and holds its entries.** -/
lemma writePiece_ok (env : MergeEnv) (hclaims : env.host.Claims)
    (hsize : env.opts.blockSize < 2 ^ 32) (name : SegName) (hw : Writable env.opts entries)
    (hruns : 0 < env.opts.inlineMax ∨ ∀ e ∈ entries, e.values ≠ []) :
    ∃ o, writePiece env name entries = .ok o ∧ o.name = name ∧
      PieceHolds env.lz env.opts.checksums o.file o.ord entries := by
  have hplain := WriterOptions.plain_piece hsize
  have hw' : Writable env.opts.piece ([] ++ entries.map id) := by
    rw [List.map_id]
    exact hw.piece
  have hstep : ∀ e ∈ entries, ∀ es w, PieceTaken env.opts.piece es w →
      Writable env.opts.piece (es ++ [id e]) →
        ∃ w', w.entry env.lz e = .ok w' ∧ PieceTaken env.opts.piece (es ++ [id e]) w' :=
    fun e _ es w h hw => h.entry env.lz hplain hw
  obtain ⟨w, hok, htaken⟩ := taken_run hstep (.create env.opts) (pieceTaken_create hplain) hw'
  rw [List.map_id, List.nil_append] at htaken
  obtain ⟨file, ord, hfin, hholds⟩ := htaken.finish env.host hclaims env.lz hplain hw.piece hruns
  refine ⟨⟨name, file, ord⟩, ?_, rfl, hholds⟩
  rw [writePiece, hok]
  simp only [bind, Except.bind, Emitter.finishPiece, hfin]

end Pieces

/-! ## An empty run in a block -/

section Deleted

open SegmentWriter

variable {opts : WriterOptions} {lz : Lz4} {w w' : SegmentWriter}

/-- An empty run is given a place, and no block is touched. -/
lemma placeRun_nil (h : w.builder.length < w.opts.blockSize) (last count : ℕ) :
    (placeRun lz w [] last count).1 = w := by
  have hroom : ¬ (w.builder ≠ [] ∧ w.opts.blockSize < w.builder.length + ([] : Bytes).length) := by
    rw [List.length_nil]
    omega
  rw [placeRun, if_neg hroom]
  simp only [List.append_nil]
  exact if_neg (not_le.mpr h)

lemma addRun_nil {key : Bytes} {last count : ℕ} (hmode : w.mode = some .blocksFirst)
    (hmax : w.opts.inlineMax = 0) (hbelow : w.builder.length < w.opts.blockSize)
    (h : w.addRun lz key [] last count = .ok w') :
    w'.mode = w.mode ∧ w'.blocks = w.blocks ∧ w'.builder = w.builder := by
  have hin : ¬ inlines w.opts.inlineMax ([] : Bytes).length = true := by
    rw [hmax]
    exact Bool.false_ne_true
  rw [addRun, layout_of_mode hmode] at h
  dsimp only at h
  rw [if_neg hin, placeRun_nil hbelow] at h
  cases h
  exact ⟨rfl, rfl, rfl⟩

/-- The writer of a deleted key alone has no block. -/
lemma blocks_addEntry_deleted {k : Bytes} (hmax : opts.inlineMax = 0)
    (hreserve : opts.headReserve = 0) (h : (create opts).addEntry lz ⟨k, [], true⟩ = .ok w) :
    (flushBlock lz w.layout.1).blocks = [] := by
  have hlay : (create opts).layout.1 = { create opts with mode := some .blocksFirst } := by
    have hmode : (create opts).mode = none := rfl
    have hno : ¬ 0 < (create opts).opts.inlineMax := fun h => h.ne' hmax
    have hcond : ¬ (0 < (create opts).opts.headReserve ∧ (create opts).reserveOff = 0) :=
      fun h => h.1.ne' hreserve
    simp only [layout, hmode, if_neg hno, if_neg hcond]
    rfl
  have hclose : closeRun (create opts).raw (create opts).lens 0 true =
      .ok ([], inlineExt [] true) := rfl
  have hsize : (create opts).builder.length < (create opts).opts.blockSize :=
    lt_of_lt_of_le Nat.one_pos (le_max_right opts.blockSize 1)
  rw [SegmentWriter.addEntry, SegmentWriter.begin, hlay] at h
  cases hc : (create opts).checkKey k with
  | error msg =>
      rw [hc] at h
      cases h
  | ok u =>
      rw [hc] at h
      simp only [bind, Except.bind, List.foldl_nil] at h
      rw [endWith_eq] at h
      dsimp only at h
      rw [hclose] at h
      simp only [bind, Except.bind] at h
      obtain ⟨hmode, hblocks, hbuilder⟩ := addRun_nil (by rfl) hmax (by exact hsize) h
      have hnil : w.builder = [] := hbuilder
      rw [layout_of_mode hmode, flushBlock, if_pos hnil]
      exact hblocks

/-- What the merges write for a key they delete. -/
def deletedOne : List Entry := [⟨[1], [], true⟩]

lemma writable_deletedOne (hmax : opts.inlineMax = 0) : Writable opts deletedOne := by
  refine ⟨by decide, fun e he => ?_, ?_⟩
  · rw [List.mem_singleton.mp he]
    exact ⟨by decide, by decide, by decide⟩
  · rw [hmax]
    cases opts.compactRecords <;> decide

/-- **A deleted key alone, where no run lies in a record.**  The piece is written and holds nothing
that can be read: its record names a block the table does not have. -/
lemma not_pieceHolds_of_deleted (env : MergeEnv) (hclaims : env.host.Claims)
    (hsize : env.opts.blockSize < 2 ^ 32) (hmax : env.opts.inlineMax = 0) (name : SegName) :
    ∃ o, writePiece env name deletedOne = .ok o ∧
      ∀ entries, ¬ PieceHolds env.lz env.opts.checksums o.file o.ord entries := by
  have hplain := WriterOptions.plain_piece hsize
  have hw := (writable_deletedOne hmax).piece
  obtain ⟨w, hok, htaken⟩ := (pieceTaken_create hplain).entry env.lz hplain hw
  obtain ⟨closed, recs, htaken⟩ := htaken.taken
  obtain ⟨file, blocks, hfin, hrecs, hblocks, ⟨f⟩⟩ :=
    htaken.finish env.host hclaims env.lz hplain (by norm_num : 1 < 2 ^ 64) hw.room
  have hnone : blocks = [] := by
    rw [PieceWriter.entry_eq] at hok
    cases hadd : (PieceWriter.create env.opts).seg.addEntry env.lz ⟨[1], [], true⟩ with
    | error msg =>
        rw [hadd] at hok
        cases hok
    | ok seg =>
        rw [hadd] at hok
        cases hok
        have hnil : (flushBlock env.lz seg.layout.1).blocks = [] :=
          blocks_addEntry_deleted (by exact hmax) rfl hadd
        exact List.length_eq_zero_iff.mp (hblocks.trans (congrArg List.length hnil))
  subst hnone
  refine ⟨⟨name, file, OrdIndex.compose w.keys⟩, ?_, fun entries hholds => ?_⟩
  · rw [writePiece, deletedOne, List.foldlM_cons, hok]
    simp only [bind, Except.bind, List.foldlM_nil, pure, Except.pure, Emitter.finishPiece,
      PieceWriter.finish, hfin]
  · -- the only record names block `b`, and the table has none
    obtain ⟨b, hopen, hanswers, -⟩ := hholds false ⟨true, true⟩ 0 (dvd_zero 8) (by simp)
    rw [f.openWith false ⟨true, true⟩ (dvd_zero 8)] at hopen
    cases hopen
    obtain ⟨v⟩ := f.reads.view (dvd_add (dvd_zero 4) f.keyAligned)
    have hat := v.atFull 0
    cases hrecs with
    | cons hx hnil =>
        cases hnil
        have hone : 0 < entries.length := by
          rw [← hanswers.keys, show (f.blob false ⟨true, true⟩ 0).keys = _ from v.nkeys]
          exact Nat.one_pos
        have hvalues := hanswers.valuesAt (List.getElem?_eq_getElem hone)
        rw [Blob.valuesAt] at hvalues
        dsimp only [SegmentFile.blob] at hvalues
        rw [hat] at hvalues
        cases hx with
        | inRecord hin =>
            have hin' : inlines env.opts.inlineMax 0 = true := hin
            rw [hmax] at hin'
            exact Bool.false_ne_true hin'
        | inBlock b o hin hb ho hrun =>
            have hout : Ext.isInline { inlineExt [] true with block := b, off := o } = false :=
              decide_eq_false hb.ne
            simp [Blob.readExts, Blob.readExt, Blob.withRun, Blob.withExtent, hout, Blob.locOf,
              MappedBlocks.get] at hvalues

end Deleted

end Supdb

import Supdb.HashedRefines

/-!
# What any run leaves of a hashed table

An entry keeps of its key what its length word says, and a chunk of its value.  Whatever was
written, of any length, and wherever a probe led to, a table that a run of operations leaves has of
every entry the key it keeps and a chain of chunks, and its arenas have given out at least the bytes
of both.

* `HashedTable.Grown` – the invariant: it asks nothing of the operations but that they did not stop.
* `takes_of_push`, `takes_of_copyKey` – what did not stop found the room it needs.
* `HashedTable.Grown.step`, `HashedTable.Grown.run` – **every operation** keeps it, and every run.
-/

namespace Supdb

open StorageLib HashedTable

/-- A key as an entry keeps it, and its chain, newest chunk first. -/
abbrev KeyChain := Bytes × List (ℕ × Option Bytes)

/-- The bytes of a chain's chunks. -/
def chainBytes (l : List (ℕ × Option Bytes)) : ℕ := (l.map (fun d => pushLen d.2)).sum

/-- An entry of a key and its chain. -/
structure GrownEntry (keys vals : ByteArena) (e : MemEntry) (c : KeyChain) : Prop where
  klen : e.klen = c.1.length
  key : keys.Holds e.keyOff c.1
  head : e.head = newest c.2 + 1
  linked : Linked vals c.2
  short : c.2.length ≤ vals.tail

/-- **What any run leaves of a table.** -/
structure HashedTable.Grown (t : HashedTable) (cs : List KeyChain) : Prop where
  keys : t.keys.Ok
  vals : t.vals.Ok
  length : t.entries.length = cs.length
  entry : ∀ (i : ℕ) e c, t.entries[i]? = some e → cs[i]? = some c → GrownEntry t.keys t.vals e c
  keyBytes : (cs.map (fun c => c.1.length)).sum ≤ t.keys.used
  chunkBytes : (cs.map (fun c => chainBytes c.2)).sum ≤ t.vals.used

/-! ## Room that was found -/

section Room

variable {a r a' : ByteArena} {t t' : HashedTable} {n z off o prev : ℕ} {x key : Bytes}
    {value : Option Bytes}

/-- A write finds its range in a block, and leaves every block as long as it was. -/
lemma write_there (h : a.write o x = some a') :
    (a.range o x.length).isSome = true ∧ ∀ p m, (a'.range p m).isSome = (a.range p m).isSome := by
  rw [ByteArena.write, Option.bind_eq_bind, Option.bind_eq_some_iff] at h
  obtain ⟨⟨mem, w⟩, hrange, h⟩ := h
  obtain ⟨hmem, rfl, hin⟩ := ByteArena.range_eq_some.mp hrange
  rw [Option.some.injEq] at h
  subst h
  refine ⟨by rw [hrange]; rfl, fun p m => ?_⟩
  rw [Bool.eq_iff_iff, ByteArena.range_isSome, ByteArena.range_isSome]
  by_cases hb : p / ARENA_BLOCK = o / ARENA_BLOCK
  · rw [hb, hmem]
    simp only [Function.update_self, Option.some.injEq, exists_eq_left', length_writeAt_of_le hin]
  · simp only [Function.update_of_ne hb]

/-- **A push that did not stop** took the room it needs. -/
lemma takes_of_push (h : t.vals.Ok) (hpush : t.push prev value = some (t', off)) :
    PushTakes t.vals value := by
  cases value with
  | none =>
      rw [HashedTable.push, HashedTable.pushTomb, Option.bind_eq_bind, Option.bind_eq_some_iff] at hpush
      obtain ⟨⟨r, o⟩, hreserve, hpush⟩ := hpush
      simp only [Option.bind_eq_bind, Option.bind_eq_some_iff] at hpush
      obtain ⟨a₁, hw₁, a₂, hw₂, -⟩ := hpush
      refine ByteArena.takes_of_range h (by decide) (by decide) hreserve ?_
      rw [← (write_there hw₁).2]
      exact (write_there hw₂).1
  | some v =>
      rw [HashedTable.push, HashedTable.pushChunk, Option.bind_eq_bind, Option.bind_eq_some_iff] at hpush
      obtain ⟨⟨r, o⟩, hreserve, hpush⟩ := hpush
      simp only [Option.bind_eq_bind, Option.bind_eq_some_iff] at hpush
      obtain ⟨a₁, hw₁, a₂, hw₂, a₃, hw₃, -⟩ := hpush
      refine ByteArena.takes_of_range h (Nat.le_add_right _ _) (by decide) hreserve ?_
      rw [← (write_there hw₁).2, ← (write_there hw₂).2, Nat.add_sub_cancel_left]
      exact (write_there hw₃).1

/-- A key copied found the room it needs. -/
lemma takes_of_copyKey (h : t.keys.Ok) (hcopy : t.copyKey key = some (t', off)) :
    t.keys.Takes key.length 0 ∧ ∀ p ∈ t.keys.reserve key.length, p.2 < 2 ^ 32 := by
  rw [copyKey, Option.bind_eq_bind, Option.bind_eq_some_iff] at hcopy
  obtain ⟨⟨r, o⟩, hreserve, hcopy⟩ := hcopy
  simp only [Option.bind_eq_bind, Option.bind_eq_some_iff] at hcopy
  obtain ⟨a₁, hw, hcopy⟩ := hcopy
  refine ⟨ByteArena.takes_of_range h (Nat.zero_le _) ByteArena.block_pos hreserve ?_,
    fun p hp => ?_⟩
  · exact (write_there hw).1
  · rw [hreserve, Option.mem_some_iff] at hp
    rw [← hp]
    by_contra hbig
    rw [if_neg hbig] at hcopy
    exact absurd hcopy (by simp)

/-- **What a push that did not stop leaves.** -/
lemma push_leaves (h : t.vals.Ok) (hpush : t.push prev value = some (t', off)) :
    ∃ vals tombs, t' = { t with vals := vals, tombs := tombs } ∧ vals.Ok ∧
      (∀ o x, t.vals.Holds o x → vals.Holds o x) ∧ t.vals.tail < vals.tail ∧
      vals.used = t.vals.used + pushLen value ∧ ChunkAt vals off prev (chunkValue value) := by
  obtain ⟨r, vals, off', -, hpushed, -, hok, hmono, htail, hend, hused, hchunk⟩ :=
    push_takes prev h (takes_of_push h hpush)
  rw [hpush, Option.some.injEq, Prod.mk.injEq] at hpushed
  obtain ⟨rfl, rfl⟩ := hpushed
  have hpos := pushLen_pos value
  exact ⟨vals, _, rfl, hok, hmono, by omega, hused, hchunk⟩

end Room

/-! ## Steps -/

section Steps

variable {hashOf : Bytes → UInt64} {t t' : HashedTable} {cs : List KeyChain} {c : KeyChain}
  {e : MemEntry} {i id off hash : ℕ} {key v : Bytes} {value : Option Bytes} {count : ℕ → ℕ}

/-- A chunk holds no more than it was pushed with. -/
lemma pushLen_chunkValue_le (value : Option Bytes) :
    pushLen (chunkValue value) ≤ pushLen value := by
  cases value with
  | none => exact le_refl _
  | some v =>
      rw [chunkValue]
      split_ifs with hword
      · exact Nat.le_add_right _ _
      · exact Nat.add_le_add_left (List.length_take_le' _ _) _

/-- A sum over a list of which one member is changed. -/
lemma sum_map_modify {α : Type} {l : List α} {x : α} (f : α → α) (g : α → ℕ) (hi : l[i]? = some x) :
    ((l.modify i f).map g).sum + g x = (l.map g).sum + g (f x) := by
  induction l generalizing i with
  | nil => exact absurd hi (by simp)
  | cons y l ih =>
      cases i with
      | zero =>
          rw [List.getElem?_cons_zero, Option.some.injEq] at hi
          subst hi
          rw [List.modify_zero_cons, List.map_cons, List.map_cons, List.sum_cons, List.sum_cons]
          omega
      | succ i =>
          rw [List.getElem?_cons_succ] at hi
          rw [List.modify_succ_cons, List.map_cons, List.map_cons, List.sum_cons, List.sum_cons]
          have hrest := ih hi
          omega

lemma GrownEntry.imp {keys keys' vals vals' : ByteArena} (h : GrownEntry keys vals e c)
    (hkeys : ∀ o x, keys.Holds o x → keys'.Holds o x)
    (hvals : ∀ o x, vals.Holds o x → vals'.Holds o x)
    (htail : vals.tail ≤ vals'.tail) : GrownEntry keys' vals' e c :=
  ⟨h.klen, hkeys _ _ h.key, h.head, h.linked.imp hvals, h.short.trans htail⟩

lemma Linked.newest_lt {a : ByteArena} {l : List (ℕ × Option Bytes)} (ha : a.Ok) (h : Linked a l) :
    newest l < 2 ^ 64 := by
  cases l with
  | nil => exact (by decide : NO_CHUNK < 2 ^ 64)
  | cons d l => exact (h.1.lt ha).trans (by decide)

/-- An entry's head, as its writer reads it. -/
lemma GrownEntry.chainHead {keys vals : ByteArena} (h : GrownEntry keys vals e c) :
    e.chainHead = newest c.2 := by
  rw [MemEntry.chainHead, h.head, if_neg (Nat.succ_ne_zero _), Nat.add_sub_cancel]

lemma HashedTable.Grown.new_grown : HashedTable.new.Grown [] := by
  refine ⟨ByteArena.new_ok, ByteArena.new_ok, rfl, fun i e c he => ?_, Nat.zero_le _, Nat.zero_le _⟩
  exact absurd he (by simp [show HashedTable.new.entries = [] from rfl])

/-- An entry and its chain, of a head that was read. -/
lemma HashedTable.Grown.headAt {prev : ℕ} (h : t.Grown cs) (hhead : t.headAt id = some prev) :
    ∃ e c, t.entries[id]? = some e ∧ cs[id]? = some c ∧ GrownEntry t.keys t.vals e c ∧
    prev = newest c.2 := by
  rw [HashedTable.headAt, Option.map_eq_some_iff] at hhead
  obtain ⟨e, he, rfl⟩ := hhead
  have hlt : id < cs.length := by
    rw [← h.length]
    exact (List.getElem?_eq_some_iff.mp he).1
  have hc := List.getElem?_eq_getElem hlt
  have hentry := h.entry id e _ he hc
  exact ⟨e, _, he, hc, hentry, hentry.chainHead⟩

/-- **A chain grown** by a push onto its entry's head. -/
lemma HashedTable.Grown.push (h : t.Grown cs) (he : t.entries[id]? = some e) (hc : cs[id]? = some c)
    (hpush : t.push (newest c.2) value = some (t', off)) :
    (t'.setHead id off count).Grown
      (cs.modify id (fun c => (c.1, (off, chunkValue value) :: c.2))) ∧ t'.entries = t.entries := by
  obtain ⟨vals, tombs, rfl, hok, hmono, htail, hused, hchunk⟩ := push_leaves h.vals hpush
  have hentry := h.entry id e c he hc
  have hlinked : Linked vals ((off, chunkValue value) :: c.2) :=
    ⟨hchunk, hentry.linked.newest_lt h.vals, hentry.linked.imp hmono⟩
  refine ⟨⟨h.keys, hok, ?_, fun i e' c' he' hc' => ?_, ?_, ?_⟩, rfl⟩
  · rw [HashedTable.setHead, List.length_modify, List.length_modify]
    exact h.length
  · rw [HashedTable.setHead] at he'
    rw [List.getElem?_modify, Option.map_eq_map, Option.map_eq_some_iff] at he' hc'
    obtain ⟨e₀, he₀, rfl⟩ := he'
    obtain ⟨c₀, hc₀, rfl⟩ := hc'
    have hold := h.entry i e₀ c₀ he₀ hc₀
    by_cases hi : id = i
    · subst hi
      rw [hc, Option.some.injEq] at hc₀
      subst hc₀
      rw [if_pos rfl, if_pos rfl]
      refine ⟨hold.klen, hold.key, rfl, hlinked, ?_⟩
      exact lt_of_le_of_lt hold.short htail
    · rw [if_neg hi, if_neg hi]
      exact hold.imp (fun _ _ hx => hx) hmono htail.le
  · have hsame : (cs.modify id (fun c => (c.1, (off, chunkValue value) :: c.2))).map
        (fun c => c.1.length) = cs.map (fun c => c.1.length) := by
      refine List.ext_getElem? (fun i => ?_)
      rw [List.getElem?_map, List.getElem?_map, List.getElem?_modify]
      cases cs[i]? with
      | none => rfl
      | some c => by_cases hi : id = i <;> simp [hi]
    rw [hsame]
    exact h.keyBytes
  · have hsum := sum_map_modify (fun c : KeyChain => (c.1, (off, chunkValue value) :: c.2))
      (fun c => chainBytes c.2) hc
    have hmore : chainBytes ((off, chunkValue value) :: c.2) = pushLen (chunkValue value) +
      chainBytes c.2 := rfl
    have hle := pushLen_chunkValue_le value
    have hbytes := h.chunkBytes
    show _ ≤ vals.used
    dsimp only at hsum
    omega

/-- **An entry made**: its first chunk, and of its key what its length word keeps. -/
lemma HashedTable.Grown.newEntry (h : t.Grown cs)
    (hnew : t.newEntry hash key value = some (t', id)) :
    ∃ off, t'.Grown (cs ++ [(key.take (key.length % 2 ^ 16), [(off, chunkValue value)])]) := by
  rw [HashedTable.newEntry, Option.bind_eq_bind, Option.bind_eq_some_iff] at hnew
  obtain ⟨⟨t₁, off⟩, hpush, hnew⟩ := hnew
  simp only [Option.bind_eq_some_iff] at hnew
  obtain ⟨⟨t₂, keyOff⟩, hcopy, hnew⟩ := hnew
  obtain ⟨vals, tombs, rfl, hok, hmono, htail, hused, hchunk⟩ := push_leaves h.vals hpush
  have htakes := takes_of_copyKey (t := { t with vals := vals, tombs := tombs }) h.keys hcopy
  obtain ⟨keys, keyOff', hcopied, hkeysOk, hkeysMono, hholds, hkeysUsed, -⟩ :=
    copyKey_spec (t := { t with vals := vals, tombs := tombs }) h.keys htakes.1 htakes.2
  rw [hcopy, Option.some.injEq, Prod.mk.injEq] at hcopied
  obtain ⟨rfl, rfl⟩ := hcopied
  let e₀ : MemEntry :=
    ⟨hash / 2 ^ 32, keyOff, key.length % 2 ^ 16, off + 1, if value.isSome then 1 else 0⟩
  let made : HashedTable :=
    { t with vals := vals, tombs := tombs, keys := keys, entries := t.entries ++ [e₀] }
  have hnew : (if t.len < SLAB_MAX then some (made, t.len) else none) = some (t', id) := hnew
  have hroom : t.len < SLAB_MAX := by
    by_contra hroom
    rw [if_neg hroom] at hnew
    exact absurd hnew (by simp)
  rw [if_pos hroom, Option.some.injEq, Prod.mk.injEq] at hnew
  obtain ⟨rfl, -⟩ := hnew
  have hkept : (key.take (key.length % 2 ^ 16)).length = key.length % 2 ^ 16 := by
    rw [List.length_take]
    exact Nat.min_eq_left (Nat.mod_le _ _)
  refine ⟨off, hkeysOk, hok, ?_, fun i e c he hc => ?_, ?_, ?_⟩
  · rw [List.length_append, List.length_append, h.length]
    rfl
  · have he : (t.entries ++ [_])[i]? = some e := he
    rw [List.getElem?_append] at he hc
    rw [h.length] at he
    split_ifs at he hc with hlt
    · exact (h.entry i e c he hc).imp hkeysMono hmono htail.le
    · rw [List.getElem?_singleton] at he hc
      split_ifs at he hc
      rw [Option.some.injEq] at he hc
      subst he hc
      exact ⟨hkept.symm, hholds.take_bytes _, rfl, ⟨hchunk, (by decide : NO_CHUNK < 2 ^ 64), trivial⟩,
        Nat.succ_le_of_lt (Nat.zero_lt_of_lt htail)⟩
  · rw [List.map_append, List.sum_append, hkeysUsed]
    have hle : (key.take (key.length % 2 ^ 16)).length ≤ key.length := List.length_take_le' _ _
    have hbytes := h.keyBytes
    simp only [List.map_cons, List.map_nil, List.sum_singleton]
    exact Nat.add_le_add hbytes hle
  · rw [List.map_append, List.sum_append]
    have hle := pushLen_chunkValue_le value
    have hbytes := h.chunkBytes
    have hone : chainBytes [(off, chunkValue value)] = pushLen (chunkValue value) := Nat.add_zero _
    simp only [List.map_cons, List.map_nil, List.sum_singleton, hone]
    show _ ≤ vals.used
    omega

/-- The index does not matter. -/
lemma HashedTable.Grown.indexInsert (h : t.Grown cs) (hinsert : t.indexInsert hash id = some t') :
    t'.Grown cs := by
  have hplaced : ∃ slots, t' = { t with slots := slots } := by
    rw [HashedTable.indexInsert] at hinsert
    simp only [Option.bind_eq_bind] at hinsert
    split_ifs at hinsert with hgrow
    · simp only [Option.bind_eq_some_iff] at hinsert
      obtain ⟨-, -, slots', -, hinsert⟩ := hinsert
      exact ⟨slots', (Option.some.inj hinsert).symm⟩
    · simp only [Option.bind_eq_some_iff] at hinsert
      obtain ⟨-, -, slots', -, hinsert⟩ := hinsert
      exact ⟨slots', (Option.some.inj hinsert).symm⟩
  obtain ⟨slots, rfl⟩ := hplaced
  exact ⟨h.keys, h.vals, h.length, h.entry, h.keyBytes, h.chunkBytes⟩

/-- A value or a tombstone written. -/
lemma HashedTable.Grown.write (h : t.Grown cs) (hwrite : t.write hash key value = some t') :
    ∃ cs', t'.Grown cs' := by
  rw [HashedTable.write, Option.bind_eq_bind, Option.bind_eq_some_iff] at hwrite
  obtain ⟨found, -, hwrite⟩ := hwrite
  cases found with
  | some id =>
      simp only [Option.bind_eq_bind, Option.bind_eq_some_iff] at hwrite
      obtain ⟨prev, hhead, ⟨t₁, off⟩, hpush, hwrite⟩ := hwrite
      obtain ⟨e, c, he, hc, -, rfl⟩ := h.headAt hhead
      rw [← Option.some.inj hwrite]
      exact ⟨_, (h.push he hc hpush).1⟩
  | none =>
      simp only [Option.bind_eq_bind, Option.bind_eq_some_iff] at hwrite
      obtain ⟨⟨t₁, id⟩, hnew, hinsert⟩ := hwrite
      obtain ⟨off, hgrown⟩ := h.newEntry hnew
      exact ⟨_, hgrown.indexInsert hinsert⟩

/-- An entry's head stored twice is stored once. -/
lemma setHead_setHead (off' : ℕ) :
    (t.setHead id off count).setHead id off' (fun _ => 1) = t.setHead id off' (fun _ => 1) := by
  have hentries : ((t.setHead id off count).setHead id off' (fun _ => 1)).entries
      = (t.setHead id off' (fun _ => 1)).entries := by
    refine List.ext_getElem? (fun i => ?_)
    rw [HashedTable.setHead, HashedTable.setHead, HashedTable.setHead, List.getElem?_modify,
      List.getElem?_modify, List.getElem?_modify]
    cases t.entries[i]? with
    | none => rfl
    | some e => by_cases hi : id = i <;> simp [hi]
  exact congrArg (fun es => ({ t with entries := es } : HashedTable)) hentries

/-- A push sees no heads. -/
lemma push_setHead {t₁ : HashedTable} {prev o : ℕ} (hpush : t.push prev value = some (t₁, o)) :
    (t.setHead id off count).push prev value = some (t₁.setHead id off count, o) := by
  cases value with
  | none =>
      rw [HashedTable.push, HashedTable.pushTomb] at hpush ⊢
      simp only [Option.bind_eq_bind, Option.bind_eq_some_iff] at hpush ⊢
      obtain ⟨r, hreserve, a₁, hw₁, a₂, hw₂, hpush⟩ := hpush
      rw [Option.some.injEq, Prod.mk.injEq] at hpush
      obtain ⟨rfl, rfl⟩ := hpush
      exact ⟨r, hreserve, a₁, hw₁, a₂, hw₂, rfl⟩
  | some v =>
      rw [HashedTable.push, HashedTable.pushChunk] at hpush ⊢
      simp only [Option.bind_eq_bind, Option.bind_eq_some_iff] at hpush ⊢
      obtain ⟨r, hreserve, a₁, hw₁, a₂, hw₂, a₃, hw₃, hpush⟩ := hpush
      rw [Option.some.injEq, Prod.mk.injEq] at hpush
      obtain ⟨rfl, rfl⟩ := hpush
      exact ⟨r, hreserve, a₁, hw₁, a₂, hw₂, a₃, hw₃, rfl⟩

/-- A put: a tombstone and a value. -/
lemma HashedTable.Grown.put (h : t.Grown cs) (hput : t.put hash key v = some t') :
    ∃ cs', t'.Grown cs' := by
  rw [HashedTable.put, Option.bind_eq_bind, Option.bind_eq_some_iff] at hput
  obtain ⟨found, -, hput⟩ := hput
  cases found with
  | some id =>
      simp only [Option.bind_eq_bind, Option.bind_eq_some_iff] at hput
      obtain ⟨prev, hhead, ⟨t₁, tomb⟩, htomb, ⟨t₂, off⟩, hpush, hput⟩ := hput
      obtain ⟨e, c, he, hc, -, rfl⟩ := h.headAt hhead
      obtain ⟨hgrown, -⟩ := @HashedTable.Grown.push _ t₁ _ _ _ _ tomb none (fun _ => 0) h he hc htomb
      have hc₁ : (cs.modify id (fun c => (c.1, (tomb, chunkValue none) :: c.2)))[id]?
          = some (c.1, (tomb, chunkValue none) :: c.2) := by
        rw [List.getElem?_modify, hc]
        simp
      have hlt : id < (t₁.setHead id tomb (fun _ => 0)).entries.length := by
        rw [hgrown.length]
        exact (List.getElem?_eq_some_iff.mp hc₁).1
      have hpush₁ := @push_setHead _ id tomb (some v) (fun _ => 0) _ _ _ hpush
      obtain ⟨hgrown', -⟩ := @HashedTable.Grown.push _ _ _ _ _ _ _ _ (fun _ => 1) hgrown
          (List.getElem?_eq_getElem hlt) hc₁ hpush₁
      rw [setHead_setHead, Option.some.inj hput] at hgrown'
      exact ⟨_, hgrown'⟩
  | none =>
      simp only [Option.bind_eq_bind, Option.bind_eq_some_iff] at hput
      obtain ⟨⟨t₁, id⟩, hnew, prev, hhead, ⟨t₂, off⟩, hpush, hinsert⟩ := hput
      obtain ⟨tomb, hgrown⟩ := h.newEntry hnew
      obtain ⟨e, c, he, hc, -, rfl⟩ := hgrown.headAt hhead
      obtain ⟨hgrown', -⟩ := @HashedTable.Grown.push _ _ _ _ _ _ _ (some v) (fun _ => 1) hgrown he hc hpush
      exact ⟨_, hgrown'.indexInsert hinsert⟩

/-- **Every operation** keeps the invariant. -/
lemma HashedTable.Grown.step {op : TableOp} (h : t.Grown cs) (hstep : t.step hashOf op = some t') :
    ∃ cs', t'.Grown cs' := by
  cases op with
  | append key value => exact h.write hstep
  | put key value => exact h.put hstep
  | delete key => exact h.write hstep
  | commit =>
      rw [← Option.some.inj hstep]
      exact ⟨cs, h.keys, h.vals, h.length, h.entry, h.keyBytes, h.chunkBytes⟩

/-- **Every run** that did not stop keeps it, whatever its operations. -/
lemma HashedTable.Grown.run {ops : List TableOp} (h : t.Grown cs)
    (hrun : t.run hashOf ops = some t') : ∃ cs', t'.Grown cs' := by
  induction ops generalizing t cs with
  | nil =>
      rw [← Option.some.inj hrun]
      exact ⟨cs, h⟩
  | cons op ops ih =>
      rw [HashedTable.run, List.foldlM_cons, Option.bind_eq_bind, Option.bind_eq_some_iff] at hrun
      obtain ⟨t₁, hstep, hrest⟩ := hrun
      obtain ⟨cs₁, hgrown⟩ := h.step hstep
      exact ih hgrown hrest

end Steps

end Supdb

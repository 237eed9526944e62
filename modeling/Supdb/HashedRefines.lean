import Supdb.HashedIndex

/-!
# What a hashed table holds

Under every commit's mark a hashed table answers as the writes committed by then.

* `HashedTable.Ok` – **the invariant**: the chunks pushed, the keys in the order they came, and an
  entry for each that names its chain.
* `TableOp.Meets` – what an operation needs: a key whose length its entry's word holds, a value
  shorter than a tombstone's length word, and room in the arenas.
* `HashedTable.Ok.step`, `HashedTable.Ok.run` – **an operation** that meets it keeps the invariant,
  and a run of them.
* `HashedTable.Within.meetsAll` – **a run whose bytes fit one block** of each arena meets all it
  needs.
* `hashedTable_refines` – **the table refines its model** under each mark.  `hashedTable_misses`: an
  entry that keeps of its key's length only the low sixteen bits.
-/

namespace Supdb

open StorageLib HashedTable

/-- An operation on a hashed table. -/
inductive TableOp where
  | append (key value : Bytes)
  | put (key value : Bytes)
  | delete (key : Bytes)
  | commit
  deriving DecidableEq, Repr

/-- What an operation writes. -/
def TableOp.records : TableOp → List WalRecord
  | append key value => [.put key value]
  | put key value => [.delete key, .put key value]
  | delete key => [.delete key]
  | commit => []

namespace HashedTable

/-- One operation; `none` where the source asserts. -/
def step (hashOf : Bytes → UInt64) (t : HashedTable) : TableOp → Option HashedTable
  | .append key value => t.append (hashOf key).toNat key value
  | .put key value => t.put (hashOf key).toNat key value
  | .delete key => t.delete (hashOf key).toNat key
  | .commit => some t.commit

/-- Appends, deletes, puts and commits in any order, until one traps. -/
def run (hashOf : Bytes → UInt64) (t : HashedTable) (ops : List TableOp) : Option HashedTable :=
  ops.foldlM (step hashOf) t

/-- What a key the table lacks needs: a length its entry holds, and room for its copy and its entry.
-/
def NewMeets (t : HashedTable) (key : Bytes) : Prop :=
  key.length < 2 ^ 16 ∧ t.keys.Takes key.length 0 ∧
    (∀ p ∈ t.keys.reserve key.length, p.2 < 2 ^ 32) ∧ t.len < SLAB_MAX

instance (t : HashedTable) (key : Bytes) : Decidable (t.NewMeets key) :=
  inferInstanceAs (Decidable (key.length < 2 ^ 16 ∧ t.keys.Takes key.length 0 ∧
    (∀ p ∈ t.keys.reserve key.length, p.2 < 2 ^ 32) ∧ t.len < SLAB_MAX))

/-- An entry of the table holds the key. -/
def Knows (t : HashedTable) (key : Bytes) : Prop := ∃ e ∈ t.entries, t.keyOf e = some key

instance (t : HashedTable) (key : Bytes) : Decidable (t.Knows key) :=
  inferInstanceAs (Decidable (∃ e ∈ t.entries, t.keyOf e = some key))

end HashedTable

/-- What an operation needs of the table it finds. -/
def TableOp.Meets (t : HashedTable) : TableOp → Prop
  | append key value => PushMeets t.vals (some value) ∧ (¬ t.Knows key → t.NewMeets key)
  | put key value => PushMeets t.vals none ∧
      (∀ p ∈ t.vals.reserve CHUNK_HDR, PushMeets p.1 (some value)) ∧
      (¬ t.Knows key → t.NewMeets key)
  | delete key => PushMeets t.vals none ∧ (¬ t.Knows key → t.NewMeets key)
  | commit => True

/-- Every operation of a run meets what it needs, in the table it finds. -/
def HashedTable.MeetsAll (hashOf : Bytes → UInt64) (t : HashedTable) : List TableOp → Prop
  | [] => True
  | op :: ops => op.Meets t ∧ ∀ t' ∈ t.step hashOf op, HashedTable.MeetsAll hashOf t' ops

/-- How many live values a key has, as its entry counts them. -/
def countOf (chunks : List (ℕ × WalRecord)) (k : Bytes) : ℕ :=
  (recordsDelta (chunks.map Prod.snd) k).vals.length % 2 ^ 32

/-- An entry of a key: its hash's half, its copy, its chain's newest chunk and its count. -/
structure EntryOk (hashOf : Bytes → UInt64) (keys : ByteArena) (chunks : List (ℕ × WalRecord))
    (e : MemEntry) (k : Bytes) : Prop where
  hash : e.hash = highOf hashOf k
  klen : e.klen = k.length
  key : keys.Holds e.keyOff k
  head : e.head = newest (chainOf chunks k) + 1
  count : e.count = countOf chunks k

/-- An entry for each key, in the order they came. -/
structure EntriesOk (hashOf : Bytes → UInt64) (keys : ByteArena) (entries : List MemEntry)
    (ks : List Bytes) (chunks : List (ℕ × WalRecord)) : Prop where
  length : entries.length = ks.length
  entry : ∀ (i : ℕ) e k, entries[i]? = some e → ks[i]? = some k → EntryOk hashOf keys chunks e k

/-- What a hashed table holds: the chunks that came, and the keys. -/
structure HashedTable.Held (hashOf : Bytes → UInt64) (t : HashedTable) (ks : List Bytes)
    (chunks : List (ℕ × WalRecord)) : Prop where
  keys : t.keys.Ok
  stored : Stored t.vals chunks
  nodup : ks.Nodup
  known : ∀ k, k ∈ ks ↔ ∃ c ∈ chunks, c.2.key = k
  entries : EntriesOk hashOf t.keys t.entries ks chunks
  few : ks.length ≤ SLAB_MAX
  keyBytes : (ks.map List.length).sum ≤ t.keys.used

/-- **A hashed table** of the keys and the chunks that came, its index of every entry. -/
structure HashedTable.Ok (hashOf : Bytes → UInt64) (t : HashedTable) (ks : List Bytes)
    (chunks : List (ℕ × WalRecord)) : Prop extends t.Held hashOf ks chunks where
  index : IndexOk t.slots (ks.map (highOf hashOf))

section Entries

variable {hashOf : Bytes → UInt64} {keys keys' : ByteArena} {entries : List MemEntry}
  {ks : List Bytes}
  {chunks more : List (ℕ × WalRecord)} {c : ℕ × WalRecord} {k key : Bytes} {e : MemEntry}

lemma countOf_snoc_self (h : c.2.key = k) :
    countOf (chunks ++ [c]) k = if c.2.value?.isSome then (countOf chunks k + 1) % 2 ^ 32
    else 0 := by
  rw [countOf, ← chainDelta_chainOf, chainOf_snoc_self h, countOf, ← chainDelta_chainOf]
  cases c.2.value? with
  | none => rfl
  | some v =>
      rw [chainDelta, List.length_append]
      exact (Nat.mod_add_mod _ _ _).symm

/-- Chunks of other keys change nothing of a chain. -/
lemma chainOf_append_of_ne (h : ∀ c ∈ more, c.2.key ≠ k) :
    chainOf (chunks ++ more) k = chainOf chunks k := by
  rw [chainOf_append, chainOf_nil_of h, List.nil_append]

lemma EntryOk.other (h : EntryOk hashOf keys chunks e k)
    (hkeys : ∀ o x, keys.Holds o x → keys'.Holds o x)
    (hmore : ∀ c ∈ more, c.2.key ≠ k) : EntryOk hashOf keys' (chunks ++ more) e k := by
  have hchain : chainOf (chunks ++ more) k = chainOf chunks k := chainOf_append_of_ne hmore
  refine ⟨h.hash, h.klen, hkeys _ _ h.key, ?_, ?_⟩
  · rw [hchain]
    exact h.head
  · rw [countOf, ← chainDelta_chainOf, hchain, chainDelta_chainOf]
    exact h.count

/-- A chain grown at an entry the table has. -/
lemma EntriesOk.setHead {t : HashedTable} {id off : ℕ} {count : ℕ → ℕ}
    (h : EntriesOk hashOf keys t.entries ks chunks) (hnodup : ks.Nodup) (hid : ks[id]? = some key)
    (hmore : ∀ c ∈ more, c.2.key = key) (hoff : newest (chainOf (chunks ++ more) key) = off)
    (hcount : count (countOf chunks key) = countOf (chunks ++ more) key) :
    EntriesOk hashOf keys (t.setHead id off count).entries ks (chunks ++ more) := by
  refine ⟨?_, fun i e k he hk => ?_⟩
  · rw [HashedTable.setHead, List.length_modify]
    exact h.length
  · rw [HashedTable.setHead, List.getElem?_modify, Option.map_eq_map, Option.map_eq_some_iff] at he
    obtain ⟨e', he', rfl⟩ := he
    have hold := h.entry i e' k he' hk
    by_cases hi : id = i
    · subst hi
      rw [hid] at hk
      injection hk with hk
      subst hk
      rw [if_pos rfl]
      refine ⟨hold.hash, hold.klen, hold.key, by rw [hoff], ?_⟩
      rw [hold.count]
      exact hcount
    · rw [if_neg hi]
      refine hold.other (fun _ _ hx => hx) (fun c hc heq => hi ?_)
      have hkey : key = k := (hmore c hc).symm.trans heq
      have h1 := List.getElem?_eq_some_iff.mp hid
      have h2 := List.getElem?_eq_some_iff.mp hk
      exact (List.Nodup.getElem_inj_iff hnodup).mp (h1.2.trans (hkey.trans h2.2.symm))

/-- An entry for a key the table lacked. -/
lemma EntriesOk.snoc (h : EntriesOk hashOf keys entries ks chunks)
    (hkeys : ∀ o x, keys.Holds o x → keys'.Holds o x) (hkey : key ∉ ks)
    (hmore : ∀ c ∈ more, c.2.key = key) (he : EntryOk hashOf keys' (chunks ++ more) e key) :
    EntriesOk hashOf keys' (entries ++ [e]) (ks ++ [key]) (chunks ++ more) := by
  refine ⟨by simp [h.length], fun i e' k he' hk => ?_⟩
  rw [List.getElem?_append] at he' hk
  rw [h.length] at he'
  split_ifs at he' hk with hlt
  · refine (h.entry i e' k he' hk).other hkeys (fun c hc heq => hkey ?_)
    rw [← hmore c hc, heq]
    exact List.mem_of_getElem? hk
  · rw [List.getElem?_singleton] at he' hk
    split_ifs at he' hk
    injection he' with he'
    injection hk with hk
    rw [← he', ← hk]
    exact he

end Entries

section Writes

variable {hashOf : Bytes → UInt64} {t : HashedTable} {ks : List Bytes}
    {chunks : List (ℕ × WalRecord)} {key : Bytes}

/-- The entries' keys read back. -/
lemma HashedTable.Held.keyOf (h : t.Held hashOf ks chunks) (i : ℕ) (k : Bytes)
    (hi : ks[i]? = some k) : t.entries[i]?.bind t.keyOf = some k := by
  have hlt : i < t.entries.length := by
    rw [h.entries.length]
    exact (List.getElem?_eq_some_iff.mp hi).1
  have hget := List.getElem?_eq_getElem hlt
  have he := h.entries.entry i _ k hget hi
  rw [hget, Option.bind_some, HashedTable.keyOf, he.klen]
  exact he.key.1

/-- A key that came to no chunk has no entry. -/
lemma HashedTable.Held.not_knows (h : t.Held hashOf ks chunks) (hkey : key ∉ ks) :
    ¬ t.Knows key := by
  rintro ⟨e, he, hk⟩
  obtain ⟨i, hi⟩ := List.mem_iff_getElem?.mp he
  have hlt : i < ks.length := by
    rw [← h.entries.length]
    exact (List.getElem?_eq_some_iff.mp hi).1
  have hread := h.keyOf i _ (List.getElem?_eq_getElem hlt)
  rw [hi, Option.bind_some, hk] at hread
  injection hread with hread
  rw [hread] at hkey
  exact hkey (List.getElem_mem hlt)

lemma HashedTable.Ok.probe_found {i : ℕ} (h : t.Ok hashOf ks chunks) (hi : ks[i]? = some key) :
    t.probe (hashOf key).toNat key = some (some i) :=
  Supdb.probe_found h.index h.few h.nodup h.keyOf hi

lemma HashedTable.Ok.probe_absent (h : t.Ok hashOf ks chunks) (hkey : key ∉ ks) :
    t.probe (hashOf key).toNat key = some none :=
  Supdb.probe_absent hashOf h.index h.few h.keyOf hkey

/-- The chain an entry's writer pushes onto. -/
lemma HashedTable.Held.headAt {i : ℕ} (h : t.Held hashOf ks chunks) (hi : ks[i]? = some key) :
    t.headAt i = some (newest (chainOf chunks key)) := by
  have hlt : i < t.entries.length := by
    rw [h.entries.length]
    exact (List.getElem?_eq_some_iff.mp hi).1
  have hget := List.getElem?_eq_getElem hlt
  have he := h.entries.entry i _ key hget hi
  rw [HashedTable.headAt, hget, Option.map_some, MemEntry.chainHead, he.head]
  simp

/-- A key copied. -/
lemma copyKey_spec (h : t.keys.Ok) (htakes : t.keys.Takes key.length 0)
    (hoff : ∀ p ∈ t.keys.reserve key.length, p.2 < 2 ^ 32) :
    ∃ keys off, t.copyKey key = some ({ t with keys := keys }, off) ∧ keys.Ok ∧
      (∀ o x, t.keys.Holds o x → keys.Holds o x) ∧ keys.Holds off key ∧
      keys.used = t.keys.used + key.length ∧
      ∀ p ∈ t.keys.reserve key.length, keys = { p.1 with blocks := keys.blocks } := by
  obtain ⟨r, off, hreserve, hr, htail, -, hused, hmono, hres⟩ :=
    ByteArena.reserve_spec h htakes (by decide)
  obtain ⟨keys, hwrite, hsame, hok, -, hholds, hm⟩ :=
    hres.write (p := 0) key hr (le_refl _) (by rw [zero_add])
  rw [add_zero] at hwrite hholds hm
  refine ⟨keys, off, ?_, hok, fun o x hx => hm o x (hx.2.trans htail) (hmono o x hx), hholds,
    by rw [hsame]; exact hused, fun p hp => ?_⟩
  · rw [copyKey, hreserve]
    simp only [Option.bind_eq_bind, Option.bind_some, hwrite]
    exact if_pos (hoff (r, off) hreserve)
  · rw [hreserve, Option.mem_some_iff] at hp
    rw [← hp]
    exact hsame

/-- An entry the table has grows its chain by a record. -/
lemma HashedTable.Held.grow {more : List (ℕ × WalRecord)} {vals : ByteArena} {tombs id off : ℕ}
    {count : ℕ → ℕ} (h : t.Held hashOf ks chunks) (hstored : Stored vals (chunks ++ more))
    (hid : ks[id]? = some key) (hmore : ∀ c ∈ more, c.2.key = key)
    (hoff : newest (chainOf (chunks ++ more) key) = off)
    (hcount : count (countOf chunks key) = countOf (chunks ++ more) key) :
    (HashedTable.setHead { t with vals := vals, tombs := tombs } id off count).Held hashOf ks
    (chunks ++ more) := by
  refine ⟨h.keys, hstored, h.nodup, fun k => ?_, ?_, h.few, h.keyBytes⟩
  · rw [h.known]
    refine ⟨fun ⟨c, hc, hk⟩ => ⟨c, List.mem_append_left _ hc, hk⟩, ?_⟩
    rintro ⟨c, hc, hk⟩
    rcases List.mem_append.mp hc with hc | hc
    · exact ⟨c, hc, hk⟩
    · have hkey : key ∈ ks := List.mem_of_getElem? hid
      rw [← hmore c hc, hk] at hkey
      exact (h.known k).mp hkey
  · exact EntriesOk.setHead (t := { t with vals := vals, tombs := tombs }) h.entries h.nodup hid
      hmore hoff hcount

/-- An entry for a key the table lacks, with its first record. -/
lemma newEntry_spec {r : WalRecord} (h : t.Held hashOf ks chunks) (hkey : r.key ∉ ks)
    (hpush : PushMeets t.vals r.value?) (hnew : t.NewMeets r.key) :
    ∃ room t' off, t.vals.reserve (pushLen r.value?) = some (room, off) ∧
      t.newEntry (hashOf r.key).toNat r.key r.value? = some (t', ks.length) ∧
      t'.Held hashOf (ks ++ [r.key]) (chunks ++ [(off, r)]) ∧ t'.slots = t.slots ∧
      t'.mark = t.mark ∧ t'.vals = { room with blocks := t'.vals.blocks } ∧ t.vals.tail ≤ off := by
  have hchain : chainOf chunks r.key = [] :=
    chainOf_nil_of (fun c hc heq => hkey ((h.known _).mpr ⟨c, hc, heq⟩))
  obtain ⟨room, vals, off, hreserve, hpushed, hsame, htail, hstored⟩ := push_stored h.stored hpush
  rw [hchain, newest] at hpushed
  set t₁ : HashedTable :=
    { t with vals := vals, tombs := t.tombs + if r.value?.isNone then 1 else 0 } with ht₁
  obtain ⟨keys, keyOff, hcopy, hkeysOk, hkeysMono, hholds, hused, -⟩ :=
    copyKey_spec (t := t₁) h.keys hnew.2.1 hnew.2.2.1
  have hmore : ∀ c ∈ [(off, r)], c.2.key = r.key := fun c hc => by rw [List.mem_singleton.mp hc]
  have hlen : t.entries.length = ks.length := h.entries.length
  have hroom : t.entries.length < SLAB_MAX := hnew.2.2.2
  let e : MemEntry :=
    ⟨(hashOf r.key).toNat / 2 ^ 32, keyOff, r.key.length % 2 ^ 16, off + 1,
      if r.value?.isSome then 1 else 0⟩
  let t₂ : HashedTable := { t₁ with keys := keys, entries := t.entries ++ [e] }
  refine ⟨room, t₂, off, hreserve, ?_, ⟨hkeysOk, hstored, ?_, fun k => ?_, ?_, ?_, ?_⟩, rfl,
    rfl, hsame, htail⟩
  · rw [newEntry, hpushed]
    simp only [Option.bind_eq_bind, Option.bind_some, hcopy]
    refine (if_pos hroom).trans ?_
    show some (t₂, t.entries.length) = _
    rw [hlen]
  · exact List.Nodup.append h.nodup (List.nodup_singleton _)
      (fun k hk hk' => hkey (List.mem_singleton.mp hk' ▸ hk))
  · rw [List.mem_append, h.known, List.mem_singleton]
    constructor
    · rintro (⟨c, hc, hk⟩ | rfl)
      · exact ⟨c, List.mem_append_left _ hc, hk⟩
      · exact ⟨_, List.mem_append_right _ (List.mem_singleton_self _), rfl⟩
    · rintro ⟨c, hc, hk⟩
      rcases List.mem_append.mp hc with hc | hc
      · exact Or.inl ⟨c, hc, hk⟩
      · exact Or.inr (by rw [← hk, hmore c hc])
  · refine h.entries.snoc hkeysMono hkey hmore ⟨rfl, Nat.mod_eq_of_lt hnew.1, hholds, ?_, ?_⟩
    · rw [chainOf_snoc_self (c := (off, r)) rfl]
      rfl
    · rw [countOf_snoc_self (c := (off, r)) rfl, countOf, ← chainDelta_chainOf, hchain]
      show (if r.value?.isSome then 1 else 0) = _
      cases r.value? with
      | none => rfl
      | some v => rfl
  · rw [List.length_append, List.length_singleton, ← hlen]
    exact hroom
  · rw [hused, List.map_append, List.sum_append, List.map_singleton, List.sum_singleton]
    exact Nat.add_le_add_right h.keyBytes _

/-- The new entry in the index. -/
lemma indexed_ok {t' : HashedTable} {chunks' : List (ℕ × WalRecord)} (h : t.Ok hashOf ks chunks)
    (h' : t'.Held hashOf (ks ++ [key]) chunks') (hslots : t'.slots = t.slots) :
    ∃ slots, t'.indexInsert (hashOf key).toNat ks.length = some { t' with slots := slots } ∧
      HashedTable.Ok hashOf { t' with slots := slots } (ks ++ [key]) chunks' := by
  have hhs : t'.entries.map MemEntry.hash = ks.map (highOf hashOf) ++
    [(hashOf key).toNat / 2 ^ 32] := by
    have hsnoc : ks.map (highOf hashOf) ++ [(hashOf key).toNat / 2 ^ 32]
      = (ks ++ [key]).map (highOf hashOf) := by
      rw [List.map_append]
      rfl
    rw [hsnoc]
    refine List.ext_getElem (by simp [h'.entries.length]) (fun i h1 h2 => ?_)
    rw [List.length_map] at h1 h2
    rw [List.getElem_map, List.getElem_map]
    exact (h'.entries.entry i _ _ (List.getElem?_eq_getElem h1) (List.getElem?_eq_getElem h2)).hash
  have hlen : t'.len ≤ SLAB_MAX := by
    show t'.entries.length ≤ SLAB_MAX
    rw [h'.entries.length]
    exact h'.few
  have hindex := h.index
  rw [← hslots] at hindex
  obtain ⟨slots, hinsert, hok⟩ := indexInsert_spec _ hindex hhs hlen
  rw [List.length_map] at hinsert
  refine ⟨slots, hinsert, ⟨h'.keys, h'.stored, h'.nodup, h'.known, h'.entries, h'.few, h'.keyBytes⟩,
    ?_⟩
  rw [List.map_append]
  exact hok

/-- **A value or a tombstone written** to a key's chain. -/
lemma HashedTable.Ok.write (h : t.Ok hashOf ks chunks) (r : WalRecord)
    (hpush : PushMeets t.vals r.value?) (hnew : ¬ t.Knows r.key → t.NewMeets r.key) :
    ∃ t' off ks', t.write (hashOf r.key).toNat r.key r.value? = some t' ∧
      t'.Ok hashOf ks' (chunks ++ [(off, r)]) ∧ ks <+: ks' ∧ t.vals.tail ≤ off ∧
      t'.mark = t.mark := by
  have hmore : ∀ off : ℕ, ∀ c ∈ [(off, r)], c.2.key = r.key :=
    fun off c hc => by rw [List.mem_singleton.mp hc]
  by_cases hkey : r.key ∈ ks
  · obtain ⟨i, hi⟩ := List.mem_iff_getElem?.mp hkey
    obtain ⟨room, vals, off, -, hpushed, -, htail, hstored⟩ := push_stored h.stored hpush
    set t₁ : HashedTable :=
      { t with vals := vals, tombs := t.tombs + if r.value?.isNone then 1 else 0 } with ht₁
    have hheld : (t₁.setHead i off (fun n => if r.value?.isSome then (n + 1) % 2 ^ 32 else 0)).Held
        hashOf ks (chunks ++ [(off, r)]) := by
      refine h.grow hstored hi (hmore off) ?_ (countOf_snoc_self (c := (off, r)) rfl).symm
      rw [chainOf_snoc_self (c := (off, r)) rfl]
      rfl
    refine ⟨_, off, ks, ?_, ⟨hheld, h.index⟩, List.prefix_rfl, htail, rfl⟩
    rw [HashedTable.write, h.probe_found hi]
    simp only [Option.bind_eq_bind, Option.bind_some, h.headAt hi, hpushed]
  · have habsent := h.probe_absent hkey
    obtain ⟨room, t₁, off, -, hentry, hheld, hslots, hmark, -, htail⟩ :=
      newEntry_spec h.toHeld hkey hpush (hnew (h.not_knows hkey))
    obtain ⟨slots, hinsert, hok⟩ := indexed_ok h hheld hslots
    refine ⟨_, off, _, ?_, hok, List.prefix_append _ _, htail, hmark⟩
    rw [HashedTable.write, habsent]
    simp only [Option.bind_eq_bind, Option.bind_some, hentry, hinsert]

/-- **A put**: a tombstone and a value, one probe for both. -/
lemma HashedTable.Ok.put {value : Bytes} (h : t.Ok hashOf ks chunks)
    (hmeets : (TableOp.put key value).Meets t) :
    ∃ t' tomb off ks', t.put (hashOf key).toNat key value = some t' ∧
      t'.Ok hashOf ks' (chunks ++ [(tomb, .delete key), (off, .put key value)]) ∧ ks <+: ks' ∧
      t.vals.tail ≤ tomb ∧ t.vals.tail ≤ off ∧ t'.mark = t.mark := by
  obtain ⟨htomb, hvalue, hnew⟩ := hmeets
  have hmore : ∀ tomb off : ℕ, ∀ c ∈ [(tomb, WalRecord.delete key), (off, WalRecord.put key value)],
    c.2.key = key := by
    intro tomb off c hc
    rcases List.mem_cons.mp hc with rfl | hc
    · rfl
    · rw [List.mem_singleton.mp hc]
      rfl
  have hchunks : ∀ tomb off : ℕ, chunks ++ [(tomb, WalRecord.delete key)] ++
      [(off, WalRecord.put key value)]
      = chunks ++ [(tomb, .delete key), (off, .put key value)] := fun _ _ => List.append_assoc _ _ _
  have hcount : ∀ tomb off : ℕ, 1 = countOf (chunks ++ [(tomb, .delete key), (off, .put key value)])
    key := by
    intro tomb off
    rw [← hchunks, countOf_snoc_self (c := (off, .put key value)) (k := key) rfl,
      countOf_snoc_self (c := (tomb, .delete key)) (k := key) rfl]
    rfl
  have hnewest : ∀ tomb off : ℕ,
    newest (chainOf (chunks ++ [(tomb, .delete key), (off, .put key value)]) key) = off := by
    intro tomb off
    rw [← hchunks, chainOf_snoc_self (c := (off, .put key value)) (k := key) rfl]
    rfl
  by_cases hkey : key ∈ ks
  · obtain ⟨i, hi⟩ := List.mem_iff_getElem?.mp hkey
    obtain ⟨room, vals, tomb, hreserve, hpushed, hsame, htail, hstored⟩ :=
      push_stored (r := .delete key) h.stored htomb
    have hroom : PushMeets vals (some value) := by
      rw [hsame]
      exact hvalue (room, tomb) hreserve
    set t₁ : HashedTable := { t with vals := vals, tombs := t.tombs + 1 } with ht₁
    obtain ⟨room', vals', off, -, hpushed', -, htail', hstored'⟩ :=
      push_stored (t := t₁) (r := .put key value) hstored hroom
    rw [show WalRecord.key (.put key value) = key from rfl,
      chainOf_snoc_self (c := (tomb, .delete key)) (k := key) rfl] at hpushed'
    rw [hchunks] at hstored'
    have htomb' : t.vals.tail ≤ off := (htail.trans hstored.last_lt.le).trans htail'
    have hheld : (HashedTable.setHead { t₁ with vals := vals' } i off (fun _ => 1)).Held hashOf ks
        (chunks ++ [(tomb, .delete key), (off, .put key value)]) :=
      h.grow hstored' hi (hmore tomb off) (hnewest tomb off) (hcount tomb off)
    refine ⟨_, tomb, off, ks, ?_, ⟨hheld, h.index⟩, List.prefix_rfl, htail, htomb', rfl⟩
    have hpushed : t.pushTomb (newest (chainOf chunks key)) = some (t₁, tomb) := hpushed
    have hpushed' : t₁.pushChunk tomb value = some ({ t₁ with vals := vals' }, off) := hpushed'
    rw [HashedTable.put, h.probe_found hi]
    simp only [Option.bind_eq_bind, Option.bind_some, h.headAt hi, hpushed, hpushed']
  · have habsent := h.probe_absent hkey
    obtain ⟨room, t₁, tomb, hreserve, hentry, hheld, hslots, hmark, hsame, htail⟩ :=
      newEntry_spec (r := .delete key) h.toHeld hkey htomb (hnew (h.not_knows hkey))
    have hi : (ks ++ [key])[ks.length]? = some key := List.getElem?_concat_length
    have hroom : PushMeets t₁.vals (some value) := by
      rw [hsame]
      exact hvalue (room, tomb) hreserve
    obtain ⟨room', vals', off, -, hpushed', -, htail', hstored'⟩ :=
      push_stored (t := t₁) (r := .put key value) hheld.stored hroom
    have hhead := hheld.headAt hi
    rw [hchunks] at hstored'
    have htomb' : t.vals.tail ≤ off := (htail.trans hheld.stored.last_lt.le).trans htail'
    have hgrown : (HashedTable.setHead { t₁ with vals := vals' } ks.length off (fun _ => 1)).Held
        hashOf (ks ++ [key]) (chunks ++ [(tomb, .delete key), (off, .put key value)]) := by
      rw [← hchunks]
      refine hheld.grow (by rw [hchunks]; exact hstored') hi
        (fun c hc => hmore tomb off c (List.mem_cons_of_mem _ hc)) ?_ ?_
      · rw [hchunks]
        exact hnewest tomb off
      · rw [hchunks]
        exact hcount tomb off
    obtain ⟨slots, hinsert, hok⟩ := indexed_ok h hgrown hslots
    refine ⟨_, tomb, off, _, ?_, hok, List.prefix_append _ _, htail, htomb', hmark⟩
    have hentry : t.newEntry (hashOf key).toNat key none = some (t₁, ks.length) := hentry
    have hpushed' : t₁.pushChunk (newest (chainOf (chunks ++ [(tomb, .delete key)]) key)) value
        = some ({ t₁ with vals := vals' }, off) := hpushed'
    rw [HashedTable.put, habsent]
    simp only [Option.bind_eq_bind, Option.bind_some, hentry, hhead, hpushed', hinsert]

lemma HashedTable.Held.commit (h : t.Held hashOf ks chunks) : t.commit.Held hashOf ks chunks :=
  ⟨h.keys, h.stored, h.nodup, h.known, h.entries, h.few, h.keyBytes⟩

/-- **An operation** that meets what it needs keeps the table what it holds, and pushes behind the
tail what it writes. -/
lemma HashedTable.Ok.step {op : TableOp} (h : t.Ok hashOf ks chunks) (hmeets : op.Meets t) :
    ∃ t' ks' more, t.step hashOf op = some t' ∧ t'.Ok hashOf ks' (chunks ++ more) ∧ ks <+: ks' ∧
      t.vals.tail ≤ t'.vals.tail ∧ (∀ c ∈ more, t.vals.tail ≤ c.1) ∧
      more.map Prod.snd = op.records ∧
      t'.mark = if op = .commit then ⟨t.len, t.vals.tail⟩ else t.mark := by
  cases op with
  | append key value =>
      obtain ⟨t', off, ks', hwrite, hok, hks, htail, hmark⟩ := h.write (.put key value) hmeets.1 hmeets.2
      exact ⟨t', ks', _, hwrite, hok, hks, htail.trans hok.stored.last_lt.le,
        fun c hc => by rw [List.mem_singleton.mp hc]; exact htail, rfl, hmark⟩
  | delete key =>
      obtain ⟨t', off, ks', hwrite, hok, hks, htail, hmark⟩ := h.write (.delete key) hmeets.1 hmeets.2
      exact ⟨t', ks', _, hwrite, hok, hks, htail.trans hok.stored.last_lt.le,
        fun c hc => by rw [List.mem_singleton.mp hc]; exact htail, rfl, hmark⟩
  | put key value =>
      obtain ⟨t', tomb, off, ks', hput, hok, hks, htail, htail', hmark⟩ := h.put hmeets
      refine ⟨t', ks', _, hput, hok, hks,
        htail.trans (hok.stored.below (tomb, .delete key) (by simp)).le, fun c hc => ?_, rfl, hmark⟩
      rcases List.mem_cons.mp hc with rfl | hc
      · exact htail
      · rw [List.mem_singleton.mp hc]
        exact htail'
  | commit =>
      refine ⟨t.commit, ks, [], rfl, ?_, List.prefix_rfl, le_refl _, fun c hc => absurd hc List.not_mem_nil, rfl, rfl⟩
      rw [List.append_nil]
      exact ⟨h.toHeld.commit, h.index⟩

lemma HashedTable.new_ok : HashedTable.new.Ok hashOf [] [] := by
  have hnil : ∀ {p : ℕ × WalRecord → Prop}, ∀ c ∈ ([] : List (ℕ × WalRecord)), p c :=
    fun c hc => absurd hc List.not_mem_nil
  refine ⟨⟨ByteArena.new_ok, ⟨ByteArena.new_ok, List.Pairwise.nil, hnil, fun k => trivial, rfl⟩,
    List.nodup_nil,
    fun k => ?_, ⟨rfl, fun i e k he => ?_⟩, Nat.zero_le _, Nat.zero_le _⟩, indexOk_new⟩
  · simp
  · exact absurd he (by simp [show HashedTable.new.entries = [] from rfl])

/-- **A run** keeps the table and the chains it stands for in step. -/
lemma HashedTable.Ok.run {ops : List TableOp} (h : t.Ok hashOf ks chunks)
    (hmeets : t.MeetsAll hashOf ops) :
    ∃ t' ks' more, t.run hashOf ops = some t' ∧ t'.Ok hashOf ks' (chunks ++ more) ∧ ks <+: ks' ∧
      t.vals.tail ≤ t'.vals.tail ∧ (∀ c ∈ more, t.vals.tail ≤ c.1) ∧
      more.map Prod.snd = ops.flatMap TableOp.records := by
  induction ops generalizing t ks chunks with
  | nil =>
      refine ⟨t, ks, [], rfl, ?_, List.prefix_rfl, le_refl _, fun c hc => absurd hc List.not_mem_nil, rfl⟩
      rw [List.append_nil]
      exact h
  | cons op ops ih =>
      obtain ⟨t₁, ks₁, more₁, hstep, hok, hks, htail, hbehind, hrecs, -⟩ := h.step hmeets.1
      obtain ⟨t', ks', more', hrun, hok', hks', htail', hbehind', hrecs'⟩ := ih hok (hmeets.2 t₁ hstep)
      refine ⟨t', ks', more₁ ++ more', ?_, ?_, hks.trans hks', htail.trans htail', fun c hc => ?_, ?_⟩
      · rw [HashedTable.run, List.foldlM_cons, hstep]
        exact hrun
      · rw [← List.append_assoc]
        exact hok'
      · rcases List.mem_append.mp hc with hc | hc
        · exact hbehind c hc
        · exact htail.trans (hbehind' c hc)
      · rw [List.map_append, hrecs, hrecs', List.flatMap_cons]

end Writes

/-! ## Reads under a mark -/

/-- What a read of an entry finds under a watermark: the values some records leave its key, and
whether one of them is a delete. -/
def HashedTable.ReadsAt (t : HashedTable) (e : MemEntry) (wm : ℕ) (rs : List WalRecord)
    (k : Bytes) : Prop :=
  ∃ offs, t.liveOffsInto e wm = some (offs, decide (WalRecord.delete k ∈ rs)) ∧
    offs.mapM t.valueAt = some (liveValues rs k) ∧
    t.hasTomb e wm = some (decide (WalRecord.delete k ∈ rs))

/-- What a probe finds: the entry of a key that records write, and none of another. -/
def HashedTable.Finds (hashOf : Bytes → UInt64) (t : HashedTable) (rs : List WalRecord) : Prop :=
  ∀ k, if ∃ r ∈ rs, r.key = k then
    ∃ id e, t.probe (hashOf k).toNat k = some (some id) ∧ t.entries[id]? = some e ∧
      t.keyOf e = some k
  else t.probe (hashOf k).toNat k = some none

section Reads

variable {hashOf : Bytes → UInt64} {t : HashedTable} {ks : List Bytes}
  {chunks old more : List (ℕ × WalRecord)} {k : Bytes} {e : MemEntry} {wm i : ℕ}

lemma Linked.of_append {a : ByteArena} {l l' : List (ℕ × Option Bytes)} (h : Linked a (l ++ l')) :
    Linked a l' := by
  induction l with
  | nil => exact h
  | cons d l ih => exact ih h.2.2

/-- A chain has no more links than the arena has bytes. -/
lemma Stored.length_chainOf_le {a : ByteArena} (h : Stored a chunks) :
    (chainOf chunks k).length ≤ a.tail := by
  have hchain : (chainOf chunks k).length ≤ chunks.length := by
    rw [chainOf, List.length_reverse, List.length_map]
    exact List.length_filter_le _ _
  have hnodup : (chunks.map Prod.fst).Nodup := h.sorted.imp (fun hlt => hlt.ne)
  have hsub : (chunks.map Prod.fst).toFinset ⊆ Finset.range a.tail := by
    intro off hoff
    obtain ⟨c, hc, rfl⟩ := List.mem_map.mp (List.mem_toFinset.mp hoff)
    exact Finset.mem_range.mpr (h.below c hc)
  have hcard := Finset.card_le_card hsub
  rw [List.toFinset_card_of_nodup hnodup, List.length_map, Finset.card_range] at hcard
  exact hchain.trans hcard

/-- A watermark cuts a chain where it cuts the chunks. -/
lemma chainOf_filter_lt (hold : ∀ c ∈ old, c.1 < wm) (hmore : ∀ c ∈ more, wm ≤ c.1) :
    (chainOf (old ++ more) k).filter (fun d => d.1 < wm) = chainOf old k := by
  have hnil : (chainOf more k).filter (fun d => d.1 < wm) = [] := by
    refine List.filter_eq_nil_iff.mpr (fun d hd => ?_)
    obtain ⟨c, hc, hcd⟩ := mem_of_mem_chainOf hd
    simpa [← hcd] using hmore c hc
  have hself : (chainOf old k).filter (fun d => d.1 < wm) = chainOf old k := by
    refine List.filter_eq_self.mpr (fun d hd => ?_)
    obtain ⟨c, hc, hcd⟩ := mem_of_mem_chainOf hd
    simpa [← hcd] using hold c hc
  rw [chainOf_append, List.filter_append, hnil, hself, List.nil_append]

/-- **A read under a watermark** finds what the records of the chunks below it leave the key. -/
lemma HashedTable.Held.readsAt (h : t.Held hashOf ks (old ++ more)) (hold : ∀ c ∈ old, c.1 < wm)
    (hmore : ∀ c ∈ more, wm ≤ c.1) (hi : ks[i]? = some k) (he : t.entries[i]? = some e) :
    t.ReadsAt e wm (old.map Prod.snd) k := by
  have hhead : e.chainHead = newest (chainOf (old ++ more) k) := by
    have hread := h.headAt hi
    rw [HashedTable.headAt, he, Option.map_some] at hread
    injection hread
  have hlinked := h.stored.linked k
  have hfuel : (chainOf (old ++ more) k).length < t.vals.tail + 1 :=
    Nat.lt_succ_of_le h.stored.length_chainOf_le
  have hcut : Linked t.vals (chainOf old k) := by
    rw [chainOf_append] at hlinked
    exact hlinked.of_append
  obtain ⟨hvals, hmasks⟩ := mapM_valueAt hcut
  have htomb : (liveOf (chainOf old k)).2 = decide (WalRecord.delete k ∈ old.map Prod.snd) := by
    rw [hmasks, chainDelta_chainOf, Bool.eq_iff_iff, masks_recordsDelta, decide_eq_true_iff]
  refine ⟨(liveOf (chainOf old k)).1.reverse, ?_, ?_, ?_⟩
  · rw [HashedTable.liveOffsInto, hhead, liveWalk_eq h.stored.arena hlinked hfuel,
      chainOf_filter_lt hold hmore, htomb]
    rfl
  · rw [hvals, chainDelta_chainOf, vals_recordsDelta]
  · rw [HashedTable.hasTomb, hhead, tombWalk_eq h.stored.arena hlinked hfuel,
      chainOf_filter_lt hold hmore, htomb]

lemma HashedTable.Held.written (h : t.Held hashOf ks chunks) :
    (∃ r ∈ chunks.map Prod.snd, r.key = k) ↔ k ∈ ks := by
  rw [h.known]
  constructor
  · rintro ⟨r, hr, hk⟩
    obtain ⟨c, hc, rfl⟩ := List.mem_map.mp hr
    exact ⟨c, hc, hk⟩
  · rintro ⟨c, hc, hk⟩
    exact ⟨c.2, List.mem_map_of_mem hc, hk⟩

lemma HashedTable.Ok.finds (h : t.Ok hashOf ks chunks) : t.Finds hashOf (chunks.map Prod.snd) := by
  intro k
  split_ifs with hk
  · obtain ⟨i, hi⟩ := List.mem_iff_getElem?.mp (h.written.mp hk)
    have hread := h.keyOf i k hi
    rw [Option.bind_eq_some_iff] at hread
    obtain ⟨e, he, hkey⟩ := hread
    exact ⟨i, e, h.probe_found hi, he, hkey⟩
  · exact h.probe_absent (fun hmem => hk (h.written.mpr hmem))

/-- A read of the first entries finds a key that came to one of them. -/
lemma HashedTable.Ok.getWith {ks₀ : List Bytes} (h : t.Ok hashOf ks chunks) (hks : ks₀ <+: ks)
    (hi : ks[i]? = some k) (he : t.entries[i]? = some e) :
    t.getWith (hashOf k).toNat k ks₀.length = some (if k ∈ ks₀ then some e else none) := by
  obtain ⟨ks₁, rfl⟩ := hks
  have hmem : k ∈ ks₀ ↔ i < ks₀.length := by
    refine ⟨fun hk => ?_, fun hlt => ?_⟩
    · obtain ⟨j, hj⟩ := List.mem_iff_getElem?.mp hk
      obtain ⟨hjlt, hjk⟩ := List.getElem?_eq_some_iff.mp hj
      have hj' : (ks₀ ++ ks₁)[j]? = some k := by rw [List.getElem?_append_left hjlt, hj]
      have h1 := List.getElem?_eq_some_iff.mp hi
      have h2 := List.getElem?_eq_some_iff.mp hj'
      have hij : i = j := (List.Nodup.getElem_inj_iff h.nodup).mp (h1.2.trans h2.2.symm)
      exact hij ▸ hjlt
    · rw [List.getElem?_append_left hlt] at hi
      exact List.mem_of_getElem? hi
  rw [HashedTable.getWith, h.probe_found hi, Option.map_some]
  by_cases hlt : i < ks₀.length
  · rw [if_pos (hmem.mpr hlt), Option.filter_some, if_pos (by simpa using hlt),
      Option.bind_some, he]
  · rw [if_neg (fun hk => hlt (hmem.mp hk)), Option.filter_some, if_neg (by simpa using hlt),
      Option.bind_none]

end Reads

section Runs

variable {hashOf : Bytes → UInt64} {t : HashedTable} {pre post : List TableOp}

lemma HashedTable.run_append :
    t.run hashOf (pre ++ post) = (t.run hashOf pre).bind (fun t' => t'.run hashOf post) := by
  rw [HashedTable.run, List.foldlM_append]
  rfl

lemma HashedTable.meetsAll_append (h : t.MeetsAll hashOf (pre ++ post)) :
    t.MeetsAll hashOf pre ∧ ∀ t' ∈ t.run hashOf pre, t'.MeetsAll hashOf post := by
  induction pre generalizing t with
  | nil =>
      refine ⟨trivial, fun t' ht' => ?_⟩
      cases ht'
      exact h
  | cons op pre ih =>
      refine ⟨⟨h.1, fun t₁ ht₁ => (ih (h.2 t₁ ht₁)).1⟩, fun t' ht' => ?_⟩
      rw [HashedTable.run, List.foldlM_cons, Option.bind_eq_bind, Option.mem_def, Option.bind_eq_some_iff] at ht'
      obtain ⟨t₁, ht₁, hrun⟩ := ht'
      exact (ih (h.2 t₁ ht₁)).2 t' hrun

end Runs

/-! ## Runs that fit a block -/

/-- An arena of one block at most, its tail at `u` or before. -/
structure ByteArena.Within (a : ByteArena) (u : ℕ) : Prop where
  start : a.blockStart = 0
  tail : a.tail ≤ u
  block : a.tail = 0 ∧ a.blockEnd = 0 ∧ a.nextBlock = 0 ∨ a.blockEnd = ARENA_BLOCK

/-- A table whose arenas and entries `u` bytes written account for. -/
structure HashedTable.Within (t : HashedTable) (u : ℕ) : Prop where
  keys : t.keys.Within u
  vals : t.vals.Within u
  few : t.len ≤ u

/-- What an operation takes of an arena, at most. -/
def TableOp.bytes : TableOp → ℕ
  | append key value => key.length + (CHUNK_HDR + value.length)
  | put key value => key.length + (CHUNK_HDR + (CHUNK_HDR + value.length))
  | delete key => key.length + CHUNK_HDR
  | commit => 0

section Within

variable {a a' : ByteArena} {t t' : HashedTable} {u n z off id prev hash : ℕ} {key : Bytes}
  {value : Option Bytes} {hashOf : Bytes → UInt64}

lemma ByteArena.Within.mono {u' : ℕ} (h : a.Within u) (hle : u ≤ u') : a.Within u' :=
  ⟨h.start, h.tail.trans hle, h.block⟩

lemma HashedTable.Within.mono {u' : ℕ} (h : t.Within u) (hle : u ≤ u') : t.Within u' :=
  ⟨h.keys.mono hle, h.vals.mono hle, h.few.trans hle⟩

/-- A reservation that fits the first block. -/
lemma ByteArena.Within.reserve (h : a.Within u) (hfit : u + n < ARENA_BLOCK) (hz : z ≤ n) :
    a.Takes n z ∧ ∀ p ∈ a.reserve n, p.1.Within (u + n) ∧ p.2 ≤ u := by
  obtain ⟨hstart, htail, hblock⟩ := h
  have hcap : capFor n = ARENA_BLOCK := by
    rw [capFor, addWord_of_lt (by rw [ARENA_BLOCK] at hfit; omega)]
    refine Nat.max_eq_left ?_
    rw [ARENA_BLOCK] at hfit ⊢
    omega
  rw [ByteArena.reserve, Takes]
  rcases hblock with ⟨htail0, hend, hnext⟩ | hend
  · have hfresh : a.Fresh n := Or.inr hend
    have hroom : a.nextBlock < ARENA_BLOCKS ∧ capFor n ≤ MAX_BLOCK := by
      rw [hnext, hcap]
      decide
    rw [if_pos hfresh, if_pos hfresh, if_pos hroom]
    refine ⟨⟨hroom.1, by rw [ARENA_BLOCK] at hfit; omega, hroom.2⟩, fun p hp => ?_⟩
    have hzero : a.nextBlock * ARENA_BLOCK = 0 := by rw [hnext, Nat.zero_mul]
    rw [← Option.some.inj hp]
    refine ⟨⟨hzero, ?_, Or.inr ?_⟩, ?_⟩
    · show addWord (a.nextBlock * ARENA_BLOCK) n ≤ u + n
      rw [hzero]
      exact (addWord_le _ _).trans (by omega)
    · show a.nextBlock * ARENA_BLOCK + capFor n = ARENA_BLOCK
      rw [hzero, hcap, Nat.zero_add]
    · exact hzero.le.trans (Nat.zero_le _)
  · have hsum : addWord a.tail n ≤ u + n := (addWord_le _ _).trans (Nat.add_le_add_right htail n)
    have hfresh : ¬ a.Fresh n := by
      rintro (hlt | hzero)
      · omega
      · exact absurd (hend.symm.trans hzero) (by decide)
    rw [if_neg hfresh, if_neg hfresh]
    refine ⟨⟨by rw [ARENA_BLOCK] at hfit; omega, ?_⟩, fun p hp => ?_⟩
    · rw [hstart, Nat.zero_div, Nat.div_eq_of_lt (by omega)]
    · rw [← Option.some.inj hp]
      exact ⟨⟨hstart, hsum, Or.inr hend⟩, htail⟩

lemma ByteArena.Within.write {bytes : Bytes} (h : a.Within u) (hw : a.write off bytes = some a') :
    a'.Within u := by
  rw [ByteArena.write, Option.bind_eq_bind, Option.bind_eq_some_iff] at hw
  obtain ⟨p, -, hp⟩ := hw
  rw [← Option.some.inj hp]
  exact ⟨h.start, h.tail, h.block⟩

/-- A chunk that fits. -/
lemma ByteArena.Within.meets (h : a.Within u) (hfit : u + pushLen value < ARENA_BLOCK) :
    PushMeets a value := by
  cases value with
  | none => exact (h.reserve hfit (by decide)).1
  | some v =>
      refine ⟨?_, (h.reserve hfit (Nat.le_add_right _ _)).1⟩
      rw [pushLen, ARENA_BLOCK] at hfit
      rw [TOMB_LEN]
      omega

lemma HashedTable.Within.push (h : t.Within u) (hfit : u + pushLen value < ARENA_BLOCK)
    (hpush : t.push prev value = some (t', off)) :
    t'.vals.Within (u + pushLen value) ∧ t'.keys = t.keys ∧ t'.entries = t.entries := by
  cases value with
  | none =>
      simp only [HashedTable.push, pushTomb, Option.bind_eq_bind, Option.bind_eq_some_iff] at hpush
      obtain ⟨⟨vals, at0⟩, hr, vals₁, h₁, vals₂, h₂, hsome⟩ := hpush
      cases hsome
      exact ⟨((((h.vals.reserve hfit (Nat.zero_le _)).2 _ hr).1.write h₁).write h₂), rfl, rfl⟩
  | some v =>
      simp only [HashedTable.push, pushChunk, Option.bind_eq_bind, Option.bind_eq_some_iff] at hpush
      obtain ⟨⟨vals, at0⟩, hr, vals₁, h₁, vals₂, h₂, vals₃, h₃, hsome⟩ := hpush
      cases hsome
      exact ⟨(((((h.vals.reserve hfit (Nat.zero_le _)).2 _ hr).1.write h₁).write h₂).write h₃), rfl, rfl⟩

lemma HashedTable.Within.newEntry (h : t.Within u)
    (hfit : u + (key.length + pushLen value) < ARENA_BLOCK)
    (hnew : t.newEntry hash key value = some (t', id)) :
    t'.Within (u + (key.length + pushLen value)) := by
  simp only [HashedTable.newEntry, copyKey, Option.bind_eq_bind, Option.bind_eq_some_iff] at hnew
  obtain ⟨⟨t₁, at0⟩, hpush, ⟨t₂, koff⟩, ⟨⟨keys, koff'⟩, hr, keys', hw, hcopy⟩, hsome⟩ := hnew
  obtain ⟨hvals, hkeys, hentries⟩ := h.push (by omega) hpush
  have hpos := pushLen_pos value
  have hfew := h.few
  obtain ⟨-, hcopy⟩ := Option.ite_none_right_eq_some.mp hcopy
  obtain ⟨-, hsome⟩ := Option.ite_none_right_eq_some.mp hsome
  cases hcopy
  cases hsome
  rw [hkeys] at hr
  refine ⟨(((h.keys.reserve (by omega) (Nat.zero_le _)).2 _ hr).1.write hw).mono (by omega),
    hvals.mono (by omega), ?_⟩
  show (t₁.entries ++ [_]).length ≤ _
  rw [List.length_append, hentries, List.length_singleton]
  show t.len + 1 ≤ _
  omega

lemma HashedTable.Within.setHead {f : ℕ → ℕ} (h : t.Within u) : (t.setHead id off f).Within u :=
  ⟨h.keys, h.vals, by rw [HashedTable.len, HashedTable.setHead, List.length_modify]; exact h.few⟩

lemma HashedTable.Within.indexInsert (h : t.Within u) (hins : t.indexInsert hash id = some t') :
    t'.Within u := by
  have hslots : ∃ slots, t' = { t with slots := slots } := by
    simp only [HashedTable.indexInsert, Option.bind_eq_bind] at hins
    split_ifs at hins <;>
    · simp only [Option.bind_eq_some_iff] at hins
      obtain ⟨-, -, slots, -, hsome⟩ := hins
      exact ⟨slots, (Option.some.inj hsome).symm⟩
  obtain ⟨slots, rfl⟩ := hslots
  exact ⟨h.keys, h.vals, h.few⟩

lemma HashedTable.Within.write (h : t.Within u)
    (hfit : u + (key.length + pushLen value) < ARENA_BLOCK)
    (hwrite : t.write hash key value = some t') : t'.Within (u + (key.length + pushLen value)) := by
  rw [HashedTable.write, Option.bind_eq_bind, Option.bind_eq_some_iff] at hwrite
  obtain ⟨found, -, hwrite⟩ := hwrite
  cases found with
  | some i =>
      simp only [Option.bind_eq_bind, Option.bind_eq_some_iff] at hwrite
      obtain ⟨p, -, ⟨t₁, at0⟩, hpush, hsome⟩ := hwrite
      cases hsome
      obtain ⟨hvals, hkeys, hentries⟩ := h.push (by omega) hpush
      exact HashedTable.Within.setHead ⟨hkeys ▸ h.keys.mono (by omega), hvals.mono (by omega),
        (congrArg List.length hentries).trans_le (h.few.trans (by omega))⟩
  | none =>
      simp only [Option.bind_eq_bind, Option.bind_eq_some_iff] at hwrite
      obtain ⟨⟨t₁, i⟩, hnew, hins⟩ := hwrite
      exact (h.newEntry hfit hnew).indexInsert hins

lemma HashedTable.Within.newMeets (h : t.Within u) (hkey : key.length < 2 ^ 16)
    (hfit : u + key.length < ARENA_BLOCK) : t.NewMeets key := by
  obtain ⟨htakes, hroom⟩ := h.keys.reserve hfit (Nat.zero_le _)
  have hfew := h.few
  refine ⟨hkey, htakes, fun p hp => lt_of_le_of_lt (hroom p hp).2 ?_, lt_of_le_of_lt hfew ?_⟩
  · rw [ARENA_BLOCK] at hfit
    omega
  · rw [ARENA_BLOCK] at hfit
    rw [SLAB_MAX]
    omega

/-- What is left of a table by a chunk more. -/
lemma HashedTable.Within.pushed (h : t.Within u) (hfit : u + pushLen value < ARENA_BLOCK)
    (hpush : t.push prev value = some (t', off)) : t'.Within (u + pushLen value) := by
  obtain ⟨hvals, hkeys, hentries⟩ := h.push hfit hpush
  exact ⟨hkeys ▸ h.keys.mono (Nat.le_add_right _ _), hvals,
    (congrArg List.length hentries).trans_le (h.few.trans (Nat.le_add_right _ _))⟩

lemma HashedTable.Within.put {v : Bytes} (h : t.Within u)
    (hfit : u + (TableOp.put key v).bytes < ARENA_BLOCK)
    (hput : t.put hash key v = some t') : t'.Within (u + (TableOp.put key v).bytes) := by
  have hbytes : (TableOp.put key v).bytes = key.length + pushLen none + pushLen (some v) :=
    (add_assoc _ _ _).symm
  rw [hbytes] at hfit ⊢
  rw [HashedTable.put, Option.bind_eq_bind, Option.bind_eq_some_iff] at hput
  obtain ⟨found, -, hput⟩ := hput
  cases found with
  | some i =>
      simp only [Option.bind_eq_bind, Option.bind_eq_some_iff] at hput
      obtain ⟨p, -, ⟨t₁, tomb⟩, htomb, ⟨t₂, off⟩, hpush, hsome⟩ := hput
      cases hsome
      have h₁ : t₁.Within (u + pushLen none) := h.pushed (by omega) htomb
      have h₂ : t₂.Within (u + pushLen none + pushLen (some v)) := h₁.pushed (by omega) hpush
      exact h₂.setHead.mono (by omega)
  | none =>
      simp only [Option.bind_eq_bind, Option.bind_eq_some_iff] at hput
      obtain ⟨⟨t₁, i⟩, hnew, p, -, ⟨t₂, off⟩, hpush, hins⟩ := hput
      have h₁ : t₁.Within (u + (key.length + pushLen none)) := h.newEntry (by omega) hnew
      have h₂ : t₂.Within (u + (key.length + pushLen none) + pushLen (some v)) :=
        h₁.pushed (by omega) hpush
      exact (h₂.setHead.indexInsert hins).mono (by omega)

/-- **An operation that fits** the first blocks meets what it needs, and leaves a table that does.
-/
lemma HashedTable.Within.step {op : TableOp} (h : t.Within u) (hfit : u + op.bytes < ARENA_BLOCK)
    (hkey : ∀ r ∈ op.records, r.key.length < 2 ^ 16) :
    op.Meets t ∧ ∀ t' ∈ t.step hashOf op, t'.Within (u + op.bytes) := by
  cases op with
  | append key v =>
      have hlong : u + (key.length + pushLen (some v)) < ARENA_BLOCK := hfit
      exact ⟨⟨h.vals.meets (by omega), fun _ => h.newMeets (hkey _ (List.mem_singleton_self _))
        (by omega)⟩, fun t' ht' => h.write hlong ht'⟩
  | delete key =>
      have hlong : u + (key.length + pushLen none) < ARENA_BLOCK := hfit
      exact ⟨⟨h.vals.meets (by omega), fun _ => h.newMeets (hkey _ (List.mem_singleton_self _))
        (by omega)⟩, fun t' ht' => h.write hlong ht'⟩
  | put key v =>
      have hlong : u + (key.length + (CHUNK_HDR + pushLen (some v))) < ARENA_BLOCK := hfit
      refine ⟨⟨@ByteArena.Within.meets _ _ none h.vals ?_, fun p hp => ?_, fun _ => ?_⟩,
        fun t' ht' => h.put hfit ht'⟩
      · rw [pushLen]
        omega
      · have hroom := (h.vals.reserve (n := CHUNK_HDR) (z := 0) (by omega) (Nat.zero_le _)).2 p hp
        exact hroom.1.meets (by omega)
      · exact h.newMeets (hkey (.delete key) List.mem_cons_self) (by omega)
  | commit => exact ⟨trivial, fun t' ht' => Option.some.inj ht' ▸ ⟨h.keys, h.vals, h.few⟩⟩

/-- **A run that fits** the first blocks meets all it needs. -/
lemma HashedTable.Within.meetsAll {ops : List TableOp} (h : t.Within u)
    (hfit : u + (ops.map TableOp.bytes).sum < ARENA_BLOCK)
    (hkeys : ∀ r ∈ ops.flatMap TableOp.records, r.key.length < 2 ^ 16) : t.MeetsAll hashOf ops := by
  induction ops generalizing t u with
  | nil => trivial
  | cons op ops ih =>
      rw [List.map_cons, List.sum_cons] at hfit
      obtain ⟨hmeets, hstep⟩ := @HashedTable.Within.step _ _ hashOf op h (by omega)
        (fun r hr => hkeys r (List.mem_flatMap.mpr ⟨op, List.mem_cons_self, hr⟩))
      exact ⟨hmeets, fun t' ht' => ih (hstep t' ht') (by omega) (fun r hr => by
        obtain ⟨o, ho, hr⟩ := List.mem_flatMap.mp hr
        exact hkeys r (List.mem_flatMap.mpr ⟨o, List.mem_cons_of_mem _ ho, hr⟩))⟩

lemma HashedTable.new_within : HashedTable.new.Within 0 :=
  ⟨⟨rfl, le_refl _, Or.inl ⟨rfl, rfl, rfl⟩⟩, ⟨rfl, le_refl _, Or.inl ⟨rfl, rfl, rfl⟩⟩, le_refl _⟩

end Within

/-- **A hashed table refines its model under each mark.**  Whatever is appended, put, deleted and
committed, a probe finds the entry of a key that was written and no other, and a read of it under
the mark of any commit finds the values that the operations before that commit leave the key, in
order, and whether one of them masks what is older. -/
theorem hashedTable_refines (hashOf : Bytes → UInt64) {ops : List TableOp}
    (hmeets : HashedTable.new.MeetsAll hashOf ops) :
    ∃ t, HashedTable.new.run hashOf ops = some t ∧ t.Finds hashOf (ops.flatMap TableOp.records) ∧
      ∀ pre post, ops = pre ++ .commit :: post →
        ∃ t₀, HashedTable.new.run hashOf (pre ++ [.commit]) = some t₀ ∧
          ∀ k id e, t.probe (hashOf k).toNat k = some (some id) → t.entries[id]? = some e →
            t.ReadsAt e t₀.mark.wm (pre.flatMap TableOp.records) k ∧
            t.getWith (hashOf k).toNat k t₀.mark.len
              = some (if ∃ r ∈ pre.flatMap TableOp.records, r.key = k then some e else none) := by
  obtain ⟨t, ks, chunks, hrun, hok, -, -, -, hrecs⟩ := new_ok.run hmeets
  rw [List.nil_append] at hok
  refine ⟨t, hrun, hrecs ▸ hok.finds, fun pre post hops => ?_⟩
  subst hops
  obtain ⟨hpre, hpost⟩ := meetsAll_append hmeets
  obtain ⟨t₁, ks₁, old, hrun₁, hok₁, -, -, -, hold⟩ := new_ok.run hpre
  rw [List.nil_append] at hok₁
  have hcommit := (hpost t₁ hrun₁).2 t₁.commit rfl
  have hok₀ : t₁.commit.Ok hashOf ks₁ old := ⟨hok₁.toHeld.commit, hok₁.index⟩
  obtain ⟨t', ks', more, hrun', hok', hks', -, hbehind, -⟩ := hok₀.run hcommit
  have ht' : t' = t := by
    have hwhole := hrun
    rw [run_append, hrun₁, Option.bind_some, HashedTable.run, List.foldlM_cons] at hwhole
    have hsome := hrun'.symm.trans hwhole
    injection hsome
  subst ht'
  refine ⟨t₁.commit, ?_, fun k id e hprobe he => ?_⟩
  · rw [run_append, hrun₁]
    rfl
  have hk : ks'[id]? = some k := by
    by_cases hmem : k ∈ ks'
    · obtain ⟨i, hi⟩ := List.mem_iff_getElem?.mp hmem
      have hsame := (hok'.probe_found hi).symm.trans hprobe
      rw [Option.some.injEq, Option.some.injEq] at hsame
      rw [← hsame]
      exact hi
    · exact absurd ((hok'.probe_absent hmem).symm.trans hprobe) (by simp)
  refine ⟨?_, ?_⟩
  · rw [← hold]
    exact hok'.toHeld.readsAt hok₁.stored.below hbehind hk he
  · have hlen : t₁.commit.mark.len = ks₁.length := hok₁.entries.length
    rw [hlen, hok'.getWith hks' hk he, ← hold]
    simp only [hok₁.written]

/-- A run with two keys: a value, a commit, another key put, a delete, and a commit. -/
def twoKeys : List TableOp :=
  [.append [1] [2], .put [3] [4], .commit, .append [1] [5], .delete [3], .commit]

lemma meetsAll_twoKeys (hashOf : Bytes → UInt64) : HashedTable.new.MeetsAll hashOf twoKeys :=
  HashedTable.new_within.meetsAll (by decide) (by decide)

/-- The run answered under its first mark, before the value and the delete behind it. -/
theorem hashedTable_refines_twoKeys :
    ∃ t, HashedTable.new.run (fun _ => 7) twoKeys = some t ∧
      t.Finds (fun _ => 7) (twoKeys.flatMap TableOp.records) ∧
      ∃ t₀, HashedTable.new.run (fun _ => 7) [.append [1] [2], .put [3] [4], .commit] = some t₀ ∧
        ∀ k id e, t.probe 7 k = some (some id) → t.entries[id]? = some e →
          t.ReadsAt e t₀.mark.wm [.put [1] [2], .delete [3], .put [3] [4]] k := by
  obtain ⟨t, hrun, hfinds, hmark⟩ := hashedTable_refines (fun _ => 7) (meetsAll_twoKeys _)
  obtain ⟨t₀, hrun₀, hreads⟩ := hmark [.append [1] [2], .put [3] [4]]
    [.append [1] [5], .delete [3], .commit] rfl
  exact ⟨t, hrun, hfinds, t₀, hrun₀, fun k id e hprobe he => (hreads k id e hprobe he).1⟩

/-- **An entry keeps the low sixteen bits of its key's length**: a table to which a key of `2 ^ 16`
bytes is appended holds the empty key in its place. -/
lemma append_long (hash : UInt64) {key : Bytes} (hlen : key.length = 2 ^ 16) :
    ∃ t off, HashedTable.new.append hash.toNat key [1] = some t ∧
      t.Ok (fun _ => hash) [[]] [(off, .put [] [1])] := by
  have hpush : PushMeets HashedTable.new.vals (WalRecord.put [] [1]).value? := by
    show PushMeets HashedTable.new.vals (some [1])
    decide
  have htakes : HashedTable.new.keys.Takes key.length 0 := by
    rw [hlen]
    decide
  have hoff : ∀ p ∈ HashedTable.new.keys.reserve key.length, p.2 < 2 ^ 32 := by
    intro p hp
    rw [ByteArena.reserve_new hp]
    decide
  have hnew : HashedTable.new.Ok (fun _ => hash) [] [] := new_ok
  obtain ⟨room, vals, off, -, hpushed, -, -, hstored⟩ :=
    push_stored (t := HashedTable.new) hnew.stored hpush
  set t₁ : HashedTable := { HashedTable.new with vals := vals, tombs := 0 } with ht₁
  obtain ⟨keys, keyOff, hcopy, hkeys, -, hholds, -, -⟩ :=
    copyKey_spec (t := t₁) ByteArena.new_ok htakes hoff
  let e : MemEntry := ⟨hash.toNat / 2 ^ 32, keyOff, key.length % 2 ^ 16, off + 1, 1⟩
  let t₂ : HashedTable := { t₁ with keys := keys, entries := [e] }
  have hentry : HashedTable.new.newEntry hash.toNat key (some [1]) = some (t₂, 0) := by
    have hpushed : HashedTable.new.push NO_CHUNK (some [1]) = some (t₁, off) := hpushed
    rw [newEntry, hpushed]
    simp only [Option.bind_eq_bind, Option.bind_some, hcopy]
    exact if_pos (show 0 < SLAB_MAX by decide)
  -- no byte of the key is read back
  have hempty : keys.Holds keyOff [] := by
    obtain ⟨mem, hmem, hroom, -⟩ := ByteArena.slice_eq_some.mp hholds.1
    refine ⟨ByteArena.slice_eq_some.mpr
      ⟨mem, hmem, (Nat.add_le_add_left (Nat.zero_le _) _).trans hroom, ?_⟩,
      (Nat.add_le_add_left (Nat.zero_le _) _).trans hholds.2⟩
    rw [List.length_nil, add_zero, StorageLib.slice_self]
  have hklen : key.length % 2 ^ 16 = ([] : Bytes).length := by
    rw [hlen]
    rfl
  have hheld : t₂.Held (fun _ => hash) ([] ++ [[]]) [(off, .put [] [1])] := by
    refine ⟨hkeys, hstored, List.nodup_singleton _, fun k => ?_,
      ⟨rfl, fun i x k hx hk => ?_⟩, by decide, Nat.zero_le _⟩
    · rw [List.nil_append, List.mem_singleton]
      refine ⟨fun hk => ⟨_, List.mem_singleton_self _, hk.symm⟩, ?_⟩
      rintro ⟨c, hc, hk⟩
      rw [← hk, List.mem_singleton.mp hc]
      rfl
    · have hx : [e][i]? = some x := hx
      rw [List.nil_append, List.getElem?_singleton] at hk
      rw [List.getElem?_singleton] at hx
      split_ifs at hx hk with hi
      rw [← Option.some.inj hx, ← Option.some.inj hk]
      exact ⟨rfl, hklen, hempty, rfl, rfl⟩
  obtain ⟨slots, hinsert, hok⟩ := indexed_ok hnew hheld rfl
  refine ⟨{ t₂ with slots := slots }, off, ?_, hok⟩
  rw [HashedTable.append, HashedTable.write, hnew.probe_absent (List.not_mem_nil : key ∉ [])]
  simp only [Option.bind_eq_bind, Option.bind_some, hentry]
  exact hinsert

/-- **A probe misses a key of `2 ^ 16` bytes** that was appended. -/
theorem hashedTable_misses :
    ∃ t, HashedTable.new.run (fun _ => 7) [.append (List.replicate (2 ^ 16) 0) [1], .commit]
      = some t ∧ ¬ t.Finds (fun _ => 7) [.put (List.replicate (2 ^ 16) 0) [1]] := by
  have hlen : (List.replicate (2 ^ 16) 0 : Bytes).length = 2 ^ 16 := List.length_replicate
  generalize (List.replicate (2 ^ 16) 0 : Bytes) = key at hlen ⊢
  obtain ⟨t, off, happend, hok⟩ := append_long 7 hlen
  refine ⟨t.commit, ?_, fun hfinds => ?_⟩
  · rw [HashedTable.run, List.foldlM_cons]
    show (HashedTable.new.append (7 : UInt64).toNat key [1]).bind _ = _
    rw [happend]
    rfl
  · have hfound := hfinds key
    rw [if_pos ⟨_, List.mem_singleton_self _, rfl⟩] at hfound
    obtain ⟨id, e, hid, -⟩ := hfound
    have hkey : key ∉ [([] : Bytes)] := by
      intro hmem
      rw [List.mem_singleton.mp hmem] at hlen
      exact absurd hlen (by decide)
    have hmiss : t.commit.probe (7 : UInt64).toNat key = some none := hok.probe_absent hkey
    rw [hmiss] at hid
    exact absurd hid (by simp)

end Supdb

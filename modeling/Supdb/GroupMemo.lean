import Mathlib.Data.List.ReduceOption
import Mathlib.Data.UInt
import Supdb.Lib.Shared
import Supdb.Lib.Trap
import Supdb.PageFormat

/-!
# The memo of decoded groups

A reader keeps the groups it has decoded in a memo: slots a group is found at by its number in its
form file, under a cap on the bytes of the groups held.  A put displaces its slot's occupant and,
where the cap is passed, others in rotation, never itself.  A group is behind an `Arc`, so a read
keeps the group it was handed when the memo lets go of it; a displaced buffer that no read holds is
kept for a later decode.

* `Memo.slot`, `Memo.recycle`, `Memo.takeFree`, `Memo.get`, `Memo.put` – the memo's functions.
* `MemoState`, `MemoOp`, `MemoState.step` – **the memo and its callers**: what they put, the handles
  they hold and the buffers they own and write.  A caller uses no handle and no buffer it does not
  have.
* `Memo.Kept`, `MemoState.Kept` – the invariant; `MemoState.Kept.step`, `MemoState.Kept.run` – a
  call, and a run of calls.
* `memo_exact` – **the memo answers only what was put.**
-/

namespace Supdb

open StorageLib Run

/-- The displaced buffers that are kept. -/
def ZMEMO_FREE : ℕ := 4

/-- An entry: the form file, the page and the group in it; the group's buffer; its length, and the
index of its first record and its record count. -/
structure MemoEntry where
  zfile : UInt64
  page : UInt32
  index : UInt8
  group : ℕ
  len : ℕ
  first : ℕ
  count : ℕ
  deriving DecidableEq, Repr

/-- The memo.  `n` are the slots there will be, which are made at the first put. -/
structure Memo where
  slots : List (Option MemoEntry)
  n : ℕ
  cap : ℕ
  bytes : ℕ
  sweep : ℕ
  free : List ℕ
  hits : ℕ
  misses : ℕ
  deriving DecidableEq, Repr

namespace Memo

/-- `Memo::new`. -/
def new (slots cap : ℕ) : Memo :=
  { slots := [], n := max slots 1, cap := cap, bytes := 0, sweep := 0, free := [], hits := 0, misses := 0 }

/-- `slot`: the group's number in the file and the file's identity, hashed, or as they were before
the hash. -/
def slot (m : Memo) (hashed : Bool) (zfile : UInt64) (page : UInt32) (index : UInt8) : ℕ :=
  let group := page.toUInt64 * ZMAX_GROUPS.toUInt64 + index.toUInt64
  if hashed then (((group + zfile * 0xD6E8FEB86659FD93) * 0x9E3779B97F4A7C15) >>> 32).toNat % m.n
  else (group + zfile * 0x9E3779B9).toNat % m.n

variable {α : Type}

/-- `recycle`: a displaced entry's buffer kept, where no read still holds its group. -/
def recycle (m : Memo) (h : Shared α) (old : MemoEntry) : Run Unit (Memo × Shared α) := do
  let bytes ← subU m.bytes old.len
  let m := { m with bytes := bytes }
  if m.free.length < ZMEMO_FREE then
    let (h, last) := h.tryUnwrap old.group
    ok (if last then { m with free := m.free ++ [old.group] } else m, h)
  else ok (m, h.drop old.group)

/-- A slot's occupant taken, and recycled where there is one. -/
def displace (m : Memo) (h : Shared α) (i : ℕ) : Run Unit (Memo × Shared α) := do
  let occupant ← Run.index m.slots i
  match occupant with
  | some old => recycle { m with slots := m.slots.set i none } h old
  | none => ok (m, h)

/-- `take_free`: a buffer for a decode, a displaced entry's or a new one. -/
def takeFree [Inhabited α] (m : Memo) (h : Shared α) : Memo × Shared α × ℕ :=
  match m.free.getLast? with
  | some b => ({ m with free := m.free.dropLast }, h, b)
  | none => (m, h.make)

/-- `get`: the group memoised, its length, and the index of its first record and its record count.
-/
def get (m : Memo) (h : Shared α) (hashed : Bool) (zfile : UInt64) (page : UInt32) (index : UInt8) :
    Run Unit (Memo × Shared α × Option (ℕ × ℕ × ℕ × ℕ)) :=
  if m.slots.isEmpty then ok (m, h, none)
  else do
    let occupant ← Run.index m.slots (m.slot hashed zfile page index)
    match occupant with
    | some e =>
        if e.zfile = zfile ∧ e.page = page ∧ e.index = index then
          ok ({ m with hits := m.hits + 1 }, h.clone e.group, some (e.group, e.len, e.first, e.count))
        else ok (m, h, none)
    | none => ok (m, h, none)

/-- The sweep of `put`: others displaced in rotation, `turns` of them at most, while the bytes held
are over the cap. -/
def sweepOut (i : ℕ) : ℕ → Memo → Shared α → Run Unit (Memo × Shared α)
  | 0, m, h => ok (m, h)
  | turns + 1, m, h =>
      if m.bytes ≤ m.cap then ok (m, h)
      else do
        let j := m.sweep
        let m := { m with sweep := (m.sweep + 1) % m.slots.length }
        if j = i then sweepOut i turns m h
        else do
          let (m, h) ← displace m h j
          sweepOut i turns m h

/-- `put`: the slot's occupant displaced, the entry in its place, and others displaced for the cap.
-/
def put (m : Memo) (h : Shared α) (hashed : Bool) (e : MemoEntry) : Run Unit (Memo × Shared α) := do
  let m := { m with misses := m.misses + 1,
                    slots := if m.slots.isEmpty then List.replicate m.n none else m.slots }
  let i := m.slot hashed e.zfile e.page e.index
  let (m, h) ← displace m h i
  let slots ← store m.slots i (some e)
  let bytes ← addU m.bytes e.len
  sweepOut i slots.length { m with slots := slots, bytes := bytes } h

/-- The entries held. -/
def entries (m : Memo) : List MemoEntry := m.slots.reduceOption

/-- The handles of the entries held. -/
def groups (m : Memo) : Multiset ℕ := m.entries.map (·.group)

/-- The lengths of the entries held. -/
def lens (m : Memo) : ℕ := (m.entries.map (·.len)).sum

end Memo

/-! ## The callers -/

/-- A call, or what a caller does with what it has: a buffer made, written or shared, a handle
cloned or dropped. -/
inductive MemoOp (α : Type)
  | get (zfile : UInt64) (page : UInt32) (index : UInt8)
  | put (e : MemoEntry)
  | takeFree
  | make
  | write (b : ℕ) (x : α)
  | wrap (b : ℕ)
  | clone (b : ℕ)
  | drop (b : ℕ)

/-- The memo, the buffers, the handles the reads hold and the buffers the callers own; and the
entries that were put, each with what was in its group. -/
structure MemoState (α : Type) where
  memo : Memo
  bufs : Shared α
  reads : List ℕ
  taken : List ℕ
  puts : List (MemoEntry × α)

/-- What was last put under a group's number. -/
def lastPut {α : Type} (puts : List (MemoEntry × α)) (zfile : UInt64) (page : UInt32)
    (index : UInt8) : Option (MemoEntry × α) :=
  puts.reverse.find? (fun p => p.1.zfile = zfile ∧ p.1.page = page ∧ p.1.index = index)

/-- The length of the last put. -/
def lastLen {α : Type} (puts : List (MemoEntry × α)) : ℕ := puts.getLast?.elim 0 (fun p => p.1.len)

namespace MemoState

variable {α : Type} [Inhabited α]

/-- A new memo, and nobody holding anything. -/
def new (slots cap : ℕ) : MemoState α :=
  { memo := Memo.new slots cap, bufs := Shared.empty, reads := [], taken := [], puts := [] }

/-- A step: a hit is held by the read that asked, and a put hands over a handle of its caller's.
`err` where the caller has not what the step is of. -/
def step (hashed : Bool) (s : MemoState α) : MemoOp α → Run Unit (MemoState α)
  | .get zfile page index => do
      let (memo, bufs, found) ← s.memo.get s.bufs hashed zfile page index
      ok { s with memo := memo, bufs := bufs, reads := (found.map (·.1)).toList ++ s.reads }
  | .put e =>
      if e.group ∈ s.reads then do
        let (memo, bufs) ← s.memo.put s.bufs hashed e
        ok { s with memo := memo, bufs := bufs, reads := s.reads.erase e.group,
                    puts := s.puts ++ [(e, s.bufs.data e.group)] }
      else err ()
  | .takeFree =>
      let (memo, bufs, b) := s.memo.takeFree s.bufs
      ok { s with memo := memo, bufs := bufs, taken := b :: s.taken }
  | .make =>
      let (bufs, b) := s.bufs.make
      ok { s with bufs := bufs, taken := b :: s.taken }
  | .write b x => if b ∈ s.taken then ok { s with bufs := s.bufs.write b x } else err ()
  | .wrap b =>
      if b ∈ s.taken then ok { s with bufs := s.bufs.wrap b, taken := s.taken.erase b, reads := b :: s.reads }
      else err ()
  | .clone b =>
      if b ∈ s.reads then ok { s with bufs := s.bufs.clone b, reads := b :: s.reads } else err ()
  | .drop b =>
      if b ∈ s.reads then ok { s with bufs := s.bufs.drop b, reads := s.reads.erase b } else err ()

/-- Reads, fills and releases of groups in any order. -/
def run (hashed : Bool) (s : MemoState α) (ops : List (MemoOp α)) : Run Unit (MemoState α) :=
  ops.foldlM (step hashed) s

end MemoState

/-! ## The slots -/

section Slots

variable {β : Type} {l : List (Option β)} {i : ℕ} {a : β}

/-- An occupied slot emptied holds one entry less. -/
lemma reduceOption_set_none (h : l[i]? = some (some a)) :
    l.reduceOption.Perm (a :: (l.set i none).reduceOption) := by
  induction l generalizing i with
  | nil => exact absurd h (by simp)
  | cons x l ih =>
      cases i with
      | zero =>
          obtain rfl := Option.some.inj h
          rw [List.set_cons_zero, List.reduceOption_cons_of_some, List.reduceOption_cons_of_none]
      | succ i =>
          rw [List.getElem?_cons_succ] at h
          rw [List.set_cons_succ]
          cases x with
          | none =>
              rw [List.reduceOption_cons_of_none, List.reduceOption_cons_of_none]
              exact ih h
          | some x =>
              rw [List.reduceOption_cons_of_some, List.reduceOption_cons_of_some]
              exact ((ih h).cons x).trans (List.Perm.swap _ _ _)

/-- An empty slot filled holds one more. -/
lemma reduceOption_set_some (h : l[i]? = some none) :
    (l.set i (some a)).reduceOption.Perm (a :: l.reduceOption) := by
  have hlt : i < l.length := (List.getElem?_eq_some_iff.mp h).1
  have hset : (l.set i (some a)).set i none = l := by
    have hnone : l[i] = none := Option.some.inj ((List.getElem?_eq_getElem hlt).symm.trans h)
    rw [List.set_set, ← hnone, List.set_getElem_self]
  have hperm :=
    reduceOption_set_none (List.getElem?_set_self hlt : (l.set i (some a))[i]? = some (some a))
  rwa [hset] at hperm

/-- Slots with nothing in them hold no entry. -/
lemma reduceOption_of_none (h : ∀ (j : ℕ) (a : β), l[j]? ≠ some (some a)) :
    l.reduceOption = [] := by
  refine List.eq_nil_iff_forall_not_mem.mpr (fun a ha => ?_)
  obtain ⟨j, hj⟩ := List.mem_iff_getElem?.mp (List.reduceOption_mem_iff.mp ha)
  exact h j a hj

end Slots

/-! ## The memo's invariant -/

namespace Memo

variable {α : Type} {m : Memo} {h : Shared α} {reads taken : Multiset ℕ} {hashed : Bool}
    {e : MemoEntry} {i : ℕ}

/-- **What the memo keeps**: its entries and the reads have the handles there are, its spare buffers
and those taken have no handle, and the bytes counted are the entries'. -/
structure Kept (m : Memo) (h : Shared α) (reads taken : Multiset ℕ) : Prop where
  accounts : h.Accounts (m.groups + reads) (m.free + taken)
  whole : m.bytes = m.lens

/-- An entry's handle is one of those there are. -/
lemma mem_groups {j : ℕ} (hj : m.slots[j]? = some (some e)) : e.group ∈ m.groups := by
  have hmem : e ∈ m.entries := List.reduceOption_mem_iff.mpr (List.mem_of_getElem? hj)
  exact Multiset.mem_coe.mpr (List.mem_map.mpr ⟨e, hmem, rfl⟩)

/-- One entry more is its handle and its bytes more. -/
lemma groups_lens_of_perm (m m' : Memo) (hperm : m.entries.Perm (e :: m'.entries)) :
    m.groups = e.group ::ₘ m'.groups ∧ m.lens = e.len + m'.lens := by
  constructor
  · rw [groups, groups, Multiset.cons_coe]
    exact Multiset.coe_eq_coe.mpr (hperm.map _)
  · rw [lens, lens, (hperm.map _).sum_eq, List.map_cons, List.sum_cons]

/-- **A buffer is recycled**: the entry's bytes and its handle are given back. -/
lemma recycle_spec {old : MemoEntry}
    (ha : h.Accounts (old.group ::ₘ (m.groups + reads)) (m.free + taken))
    (hb : m.bytes = old.len + m.lens) :
    ∃ free, m.recycle h old = ok ({ m with bytes := m.lens, free := free }, h.drop old.group) ∧
      Kept { m with bytes := m.lens, free := free } (h.drop old.group) reads taken := by
  have hbytes : m.bytes - old.len = m.lens := by omega
  rw [recycle, subU_eq (by omega), ok_bind, hbytes]
  dsimp only
  by_cases hroom : m.free.length < ZMEMO_FREE
  · rw [if_pos hroom, Shared.tryUnwrap]
    dsimp only
    by_cases hlast : h.strong old.group = 1
    · refine ⟨m.free ++ [old.group], by rw [decide_eq_true hlast, if_pos rfl], ?_, rfl⟩
      have hown := ha.unwrap hlast
      rwa [← Multiset.cons_add, Multiset.cons_coe,
        Multiset.coe_eq_coe.mpr (List.perm_append_singleton old.group m.free).symm] at hown
    · exact ⟨m.free, by rw [decide_eq_false hlast, if_neg Bool.false_ne_true], ha.drop, rfl⟩
  · exact ⟨m.free, by rw [if_neg hroom], ha.drop, rfl⟩

/-- What is left where a slot is emptied. -/
structure Emptied (i : ℕ) (m m' : Memo) : Prop where
  n_eq : m'.n = m.n
  cap_eq : m'.cap = m.cap
  sweep_eq : m'.sweep = m.sweep
  slots_eq : m'.slots = m.slots.set i none
  bytes_le : m'.bytes ≤ m.bytes

/-- **A slot is emptied.** -/
lemma displace_spec (hk : m.Kept h reads taken) (hi : i < m.slots.length) :
    ∃ m' h', m.displace h i = ok (m', h') ∧ m'.Kept h' reads taken ∧ h'.data = h.data ∧
    Emptied i m m' := by
  rw [displace, index_eq hi, ok_bind]
  have hget := List.getElem?_eq_getElem hi
  cases hocc : m.slots[i] with
  | none =>
      have hset : m.slots.set i none = m.slots := by rw [← hocc, List.set_getElem_self]
      exact ⟨m, h, rfl, hk, rfl, rfl, rfl, rfl, hset.symm, le_refl _⟩
  | some old =>
      rw [hocc] at hget
      obtain ⟨hgroups, hlens⟩ := groups_lens_of_perm m { m with slots := m.slots.set i none }
        (reduceOption_set_none hget)
      have ha := hk.accounts
      rw [hgroups, Multiset.cons_add] at ha
      obtain ⟨free, hrun, hkept⟩ := recycle_spec ha (hk.whole.trans hlens)
      refine ⟨_, _, hrun, hkept, rfl, rfl, rfl, rfl, rfl, ?_⟩
      rw [hk.whole, hlens]
      exact Nat.le_add_left _ _

/-- **A slot is filled**: the entry takes its caller's handle. -/
lemma fill_spec (hk : m.Kept h (e.group ::ₘ reads) taken) (hempty : m.slots[i]? = some none) :
    Kept { m with slots := m.slots.set i (some e), bytes := m.bytes + e.len } h reads taken := by
  obtain ⟨hgroups, hlens⟩ :=
    groups_lens_of_perm { m with slots := m.slots.set i (some e), bytes := m.bytes + e.len } m
    (reduceOption_set_some hempty)
  refine ⟨?_, ?_⟩
  · rw [hgroups, Multiset.cons_add, ← Multiset.add_cons]
    exact hk.accounts
  · rw [hlens, ← hk.whole]
    exact Nat.add_comm _ _

/-- The next turn of a rotation is one nearer. -/
lemma rotation_next {t s n j : ℕ} (hs : s < n) (hne : j ≠ s) (h : ∃ d < t + 1, (s + d) % n = j) :
    ∃ d < t, ((s + 1) % n + d) % n = j := by
  obtain ⟨d, hd, hj⟩ := h
  cases d with
  | zero =>
      rw [Nat.add_zero, Nat.mod_eq_of_lt hs] at hj
      exact absurd hj.symm hne
  | succ d =>
      refine ⟨d, by omega, ?_⟩
      rw [Nat.mod_add_mod, ← hj]
      congr 1
      omega

/-- Every slot is met in a rotation. -/
lemma rotation_all {s n j : ℕ} (hs : s < n) (hj : j < n) : ∃ d < n, (s + d) % n = j := by
  by_cases hle : s ≤ j
  · refine ⟨j - s, by omega, ?_⟩
    rw [Nat.add_sub_cancel' hle, Nat.mod_eq_of_lt hj]
  · refine ⟨n - s + j, by omega, ?_⟩
    rw [show s + (n - s + j) = j + n by omega, Nat.add_mod_right, Nat.mod_eq_of_lt hj]

/-- What a sweep from `m` leaves: the entry just put, and of the others some. -/
structure Swept (i : ℕ) (e : MemoEntry) (m m' : Memo) : Prop where
  n_eq : m'.n = m.n
  cap_eq : m'.cap = m.cap
  length_eq : m'.slots.length = m.slots.length
  sweep_lt : m'.sweep < m.slots.length
  fewer : ∀ (j : ℕ) (x : MemoEntry), m'.slots[j]? = some (some x) → m.slots[j]? = some (some x)
  within : m'.bytes ≤ max m.cap e.len

/-- Where nothing but one entry is left, the bytes are its own. -/
lemma Kept.bytes_of_alone (hk : m.Kept h reads taken) (he : m.slots[i]? = some (some e))
    (halone : ∀ (j : ℕ) (x : MemoEntry), j ≠ i → m.slots[j]? ≠ some (some x)) :
    m.bytes = e.len := by
  have hrest : (m.slots.set i none).reduceOption = [] := by
    refine reduceOption_of_none (fun j x => ?_)
    by_cases hj : j = i
    · rw [hj, List.getElem?_set_self (List.getElem?_eq_some_iff.mp he).1]
      simp
    · rw [List.getElem?_set_ne (Ne.symm hj)]
      exact halone j x hj
  have hperm := reduceOption_set_none he
  rw [hrest] at hperm
  rw [hk.whole, lens, entries, List.perm_singleton.mp hperm, List.map_singleton, List.sum_singleton]

/-- **The sweep**: while others are met, others go, and past them all the entry just put is alone.
-/
lemma sweepOut_spec (turns : ℕ) (hk : m.Kept h reads taken) (he : m.slots[i]? = some (some e))
    (hsweep : m.sweep < m.slots.length)
    (hnear : ∀ (j : ℕ) (x : MemoEntry), j ≠ i → m.slots[j]? = some (some x) → ∃ d < turns,
    (m.sweep + d) % m.slots.length = j) :
    ∃ m' h', sweepOut i turns m h = ok (m', h') ∧ m'.Kept h' reads taken ∧ h'.data = h.data ∧
    Swept i e m m' := by
  induction turns generalizing m h with
  | zero =>
      have halone : ∀ (j : ℕ) (x : MemoEntry), j ≠ i → m.slots[j]? ≠ some (some x) := by
        intro j x hj hx
        obtain ⟨d, hd, -⟩ := hnear j x hj hx
        exact Nat.not_lt_zero d hd
      refine ⟨m, h, rfl, hk, rfl, rfl, rfl, rfl, hsweep, fun j x hx => hx, ?_⟩
      rw [hk.bytes_of_alone he halone]
      exact le_max_right _ _
  | succ turns ih =>
      rw [sweepOut]
      by_cases hcap : m.bytes ≤ m.cap
      · rw [if_pos hcap]
        exact ⟨m, h, rfl, hk, rfl, rfl, rfl, rfl, hsweep, fun j x hx => hx, hcap.trans (le_max_left _ _)⟩
      · rw [if_neg hcap]
        have hnext : (m.sweep + 1) % m.slots.length < m.slots.length := Nat.mod_lt _ (by omega)
        have hkept : Kept { m with sweep := (m.sweep + 1) % m.slots.length } h reads taken := ⟨hk.accounts, hk.whole⟩
        dsimp only
        by_cases hself : m.sweep = i
        · rw [if_pos hself]
          obtain ⟨m', h', hrun, hkept', hdata, hswept⟩ := ih hkept he hnext (fun j x hj hx =>
            rotation_next hsweep (hself ▸ hj) (hnear j x hj hx))
          exact ⟨m', h', hrun, hkept', hdata, hswept.n_eq, hswept.cap_eq, hswept.length_eq,
            hswept.sweep_lt, hswept.fewer, hswept.within⟩
        · rw [if_neg hself]
          obtain ⟨m₁, h₁, hrun₁, hkept₁, hdata₁, hempt⟩ := displace_spec hkept hsweep
          have hlen : m₁.slots.length = m.slots.length := by rw [hempt.slots_eq, List.length_set]
          have hother : ∀ (j : ℕ) (x : MemoEntry), m₁.slots[j]? = some (some x) →
              j ≠ m.sweep ∧ m.slots[j]? = some (some x) := by
            intro j x hx
            rw [hempt.slots_eq] at hx
            have hj : j ≠ m.sweep := by
              rintro rfl
              rw [List.getElem?_set_self hsweep] at hx
              exact absurd hx (by simp)
            rw [List.getElem?_set_ne hj.symm] at hx
            exact ⟨hj, hx⟩
          obtain ⟨m', h', hrun, hkept', hdata, hswept⟩ := ih hkept₁
            (by rw [hempt.slots_eq, List.getElem?_set_ne hself]; exact he)
            (by rw [hlen, hempt.sweep_eq]; exact hnext)
            (fun j x hj hx => by
              obtain ⟨hne, hx⟩ := hother j x hx
              rw [hlen, hempt.sweep_eq]
              exact rotation_next hsweep hne (hnear j x hj hx))
          refine ⟨m', h', ?_, hkept', hdata.trans hdata₁, hswept.n_eq.trans hempt.n_eq,
            hswept.cap_eq.trans hempt.cap_eq, hswept.length_eq.trans hlen,
            hswept.sweep_lt.trans_eq hlen, fun j x hx => (hother j x (hswept.fewer j x hx)).2, ?_⟩
          · rw [hrun₁, ok_bind]
            exact hrun
          · rw [← hempt.cap_eq]
            exact hswept.within

/-- The slots are made, or will be. -/
structure Shaped (m : Memo) : Prop where
  pos : 0 < m.n
  made : m.slots = [] ∨ m.slots.length = m.n
  sweep_lt : m.sweep < m.n

/-- The slots, made where they are not. -/
lemma made_spec (hs : m.Shaped) :
    (if m.slots.isEmpty then List.replicate m.n none else m.slots).length = m.n ∧
      (if m.slots.isEmpty then List.replicate m.n none else m.slots).reduceOption
      = m.slots.reduceOption := by
  by_cases hempty : m.slots = []
  · rw [hempty, List.isEmpty_nil, if_pos rfl, List.length_replicate,
      List.reduceOption_replicate_none]
    exact ⟨rfl, rfl⟩
  · rw [if_neg (by rwa [List.isEmpty_iff])]
    exact ⟨hs.made.resolve_left hempty, rfl⟩

/-- An entry of the slots made was one before. -/
lemma made_fewer (hs : m.Shaped) (j : ℕ) (x : MemoEntry)
    (hx : (if m.slots.isEmpty then List.replicate m.n none else m.slots)[j]? = some (some x)) :
    m.slots[j]? = some (some x) := by
  by_cases hempty : m.slots = []
  · have hmem := List.reduceOption_mem_iff.mpr (List.mem_of_getElem? hx)
    rw [(made_spec hs).2, hempty] at hmem
    exact absurd hmem List.not_mem_nil
  · rwa [if_neg (by rwa [List.isEmpty_iff])] at hx

/-- What a put leaves: the entry at its slot, and elsewhere nothing that was not there. -/
structure Placed (i : ℕ) (e : MemoEntry) (m m' : Memo) : Prop where
  n_eq : m'.n = m.n
  cap_eq : m'.cap = m.cap
  shaped : m'.Shaped
  within : m'.bytes ≤ max m.cap e.len
  fewer : ∀ (j : ℕ) (x : MemoEntry), m'.slots[j]? = some (some x) →
    (j = i ∧ x = e) ∨ (j ≠ i ∧ m.slots[j]? = some (some x))

/-- A slot is of the slots' number alone. -/
lemma slot_congr {m' : Memo} (h : m'.n = m.n) (zfile : UInt64) (page : UInt32) (index : UInt8) :
    m'.slot hashed zfile page index = m.slot hashed zfile page index := by
  rw [slot, slot, h]

lemma slot_lt (hashed : Bool) (hpos : 0 < m.n) (zfile : UInt64) (page : UInt32) (index : UInt8) :
    m.slot hashed zfile page index < m.n := by
  rw [slot]
  split_ifs
  · exact Nat.mod_lt _ hpos
  · exact Nat.mod_lt _ hpos

/-- **A put**: the entry takes its caller's handle, or the lengths held do not fit a word. -/
lemma put_spec (hashed : Bool) (hk : m.Kept h (e.group ::ₘ reads) taken) (hs : m.Shaped) :
    (m.put h hashed e = trap .overflow ∧ 2 ^ 64 ≤ m.bytes + e.len) ∨
      ∃ m' h', m.put h hashed e = ok (m', h') ∧ m'.Kept h' reads taken ∧ h'.data = h.data ∧
        Placed (m.slot hashed e.zfile e.page e.index) e m m' := by
  obtain ⟨hlen, hsame⟩ := made_spec hs
  have hfewer := made_fewer hs
  have hi := slot_lt hashed hs.pos e.zfile e.page e.index
  have hslot : ∀ (slots : List (Option MemoEntry)),
      slot { m with misses := m.misses + 1, slots := slots } hashed e.zfile e.page e.index =
        m.slot hashed e.zfile e.page e.index := fun slots => slot_congr rfl _ _ _
  rw [put]
  dsimp only
  rw [hslot]
  generalize (if m.slots.isEmpty then List.replicate m.n none else m.slots)
    = slots at hlen hsame hfewer ⊢
  generalize m.slot hashed e.zfile e.page e.index = i at hi ⊢
  have hkept : Kept { m with misses := m.misses + 1, slots := slots } h (e.group ::ₘ reads)
    taken := by
    refine ⟨?_, ?_⟩
    · rw [groups, entries, hsame]
      exact hk.accounts
    · rw [lens, entries, hsame]
      exact hk.whole
  obtain ⟨m₁, h₁, hrun₁, hkept₁, hdata₁, hempt⟩ := displace_spec hkept (hi.trans_eq hlen.symm)
  have hlen₁ : m₁.slots.length = m.n := by rw [hempt.slots_eq, List.length_set, hlen]
  have hempty : m₁.slots[i]? = some none := by
    rw [hempt.slots_eq]
    exact List.getElem?_set_self (hi.trans_eq hlen.symm)
  have hsweep : m₁.sweep < m.n := hempt.sweep_eq.trans_lt hs.sweep_lt
  rw [hrun₁, ok_bind]
  dsimp only
  rw [store_eq _ (hi.trans_eq hlen₁.symm), ok_bind]
  by_cases hfits : m₁.bytes + e.len < 2 ^ 64
  · refine Or.inr ?_
    have hat : (m₁.slots.set i (some e))[i]? = some (some e) :=
      List.getElem?_set_self (hi.trans_eq hlen₁.symm)
    obtain ⟨m', h', hrun, hkept', hdata, hswept⟩ := sweepOut_spec (m₁.slots.set i (some e)).length
      (fill_spec hkept₁ hempty) hat (hsweep.trans_eq (by rw [List.length_set, hlen₁]))
      (fun j x _ hx => by
        have hj := (List.getElem?_eq_some_iff.mp hx).1
        refine rotation_all ?_ hj
        exact hsweep.trans_eq (by rw [List.length_set, hlen₁]))
    have hlen' : m'.slots.length = m.n := hswept.length_eq.trans (by rw [List.length_set, hlen₁])
    have hn : m'.n = m.n := hswept.n_eq.trans hempt.n_eq
    refine ⟨m', h', ?_, hkept', hdata.trans hdata₁, hn, hswept.cap_eq.trans hempt.cap_eq,
      ?_, ?_, ?_⟩
    · rw [addU_eq hfits, ok_bind, hrun]
    · refine ⟨hs.pos.trans_eq hn.symm, Or.inr (hlen'.trans hn.symm), ?_⟩
      exact hswept.sweep_lt.trans_eq (by rw [List.length_set, hlen₁, hn])
    · exact hswept.within.trans_eq (by rw [hempt.cap_eq])
    · intro j x hx
      have hx := hswept.fewer j x hx
      by_cases hj : j = i
      · rw [hj, hat, Option.some.injEq, Option.some.injEq] at hx
        exact Or.inl ⟨hj, hx.symm⟩
      · rw [List.getElem?_set_ne (Ne.symm hj), hempt.slots_eq, List.getElem?_set_ne (Ne.symm hj)] at hx
        exact Or.inr ⟨hj, hfewer j x hx⟩
  · have hle : m₁.bytes ≤ m.bytes := hempt.bytes_le
    refine Or.inl ⟨?_, by omega⟩
    rw [addU_trap hfits]
    rfl

/-- **A get**: nothing, or the entry at the slot, which is that group's, and a handle more of its
buffer. -/
lemma get_spec (h : Shared α) (hashed : Bool) (hs : m.Shaped) (zfile : UInt64) (page : UInt32)
    (index : UInt8) : m.get h hashed zfile page index = ok (m, h, none) ∨
      ∃ e, m.slots[m.slot hashed zfile page index]? = some (some e) ∧
        e.zfile = zfile ∧ e.page = page ∧ e.index = index ∧
        m.get h hashed zfile page index =
          ok ({ m with hits := m.hits + 1 }, h.clone e.group, some (e.group, e.len, e.first, e.count)) := by
  rw [get]
  by_cases hempty : m.slots.isEmpty = true
  · exact Or.inl (if_pos hempty)
  · have hlen := hs.made.resolve_left (fun hnil => hempty (List.isEmpty_iff.mpr hnil))
    have hi : m.slot hashed zfile page index < m.slots.length :=
      (slot_lt hashed hs.pos _ _ _).trans_eq hlen.symm
    rw [if_neg hempty, index_eq hi, ok_bind]
    cases hocc : m.slots[m.slot hashed zfile page index] with
    | none => exact Or.inl rfl
    | some e =>
        dsimp only
        by_cases hkey : e.zfile = zfile ∧ e.page = page ∧ e.index = index
        · rw [if_pos hkey]
          refine Or.inr ⟨e, ?_, hkey.1, hkey.2.1, hkey.2.2, rfl⟩
          rw [List.getElem?_eq_getElem hi, hocc]
        · exact Or.inl (if_neg hkey)

/-- **A buffer for a decode** is the taker's, and nobody else's. -/
lemma takeFree_spec [Inhabited α] (hk : m.Kept h reads taken) :
    ∃ free h' b, m.takeFree h = ({ m with free := free }, h', b) ∧
      Kept { m with free := free } h' reads (b ::ₘ taken) ∧ ∀ c ∈ m.groups + reads, h'.data c
      = h.data c := by
  rw [takeFree]
  cases hlast : m.free.getLast? with
  | none =>
      refine ⟨m.free, h.make.1, h.next, rfl, ⟨?_, hk.whole⟩, fun c hc => hk.accounts.data_make hc⟩
      rw [Multiset.add_cons]
      exact hk.accounts.make
  | some b =>
      refine ⟨m.free.dropLast, h, b, rfl, ⟨?_, hk.whole⟩, fun c _ => rfl⟩
      obtain ⟨front, hfront⟩ := List.getLast?_eq_some_iff.mp hlast
      have ha := hk.accounts
      rw [hfront, Multiset.coe_eq_coe.mpr (List.perm_append_singleton b front), ← Multiset.cons_coe,
        Multiset.cons_add, ← Multiset.add_cons] at ha
      dsimp only
      rw [hfront, List.dropLast_concat]
      exact ha

end Memo

/-! ## Any run of calls -/

section Puts

variable {α : Type} {puts : List (MemoEntry × α)} {p : MemoEntry × α} {zfile : UInt64}
    {page : UInt32} {index : UInt8}

/-- A put is the last of its own number, -/
lemma lastPut_concat_self (puts : List (MemoEntry × α)) (p : MemoEntry × α) :
    lastPut (puts ++ [p]) p.1.zfile p.1.page p.1.index = some p := by
  rw [lastPut, List.reverse_append, List.reverse_singleton, List.singleton_append,
    List.find?_cons_of_pos (by simp)]

/-- and of no other. -/
lemma lastPut_concat_of_ne (h : ¬ (p.1.zfile = zfile ∧ p.1.page = page ∧ p.1.index = index)) :
    lastPut (puts ++ [p]) zfile page index = lastPut puts zfile page index := by
  rw [lastPut, List.reverse_append, List.reverse_singleton, List.singleton_append,
    List.find?_cons_of_neg (by simpa using h), lastPut]

lemma lastLen_concat (puts : List (MemoEntry × α)) (p : MemoEntry × α) :
    lastLen (puts ++ [p]) = p.1.len := by
  rw [lastLen, List.getLast?_concat, Option.elim_some]

end Puts

namespace MemoState

variable {α : Type} [Inhabited α] {hashed : Bool} {cap : ℕ} {s s' : MemoState α} {op : MemoOp α}

/-- **The invariant**: the memo keeps its own, every entry lies at its slot and is the last put of
its number, what is in its buffer is what was put, and the bytes held are within the cap or the last
put alone. -/
structure Kept (hashed : Bool) (cap : ℕ) (s : MemoState α) : Prop where
  memo : s.memo.Kept s.bufs s.reads s.taken
  shaped : s.memo.Shaped
  cap_eq : s.memo.cap = cap
  placed : ∀ (j : ℕ) (x : MemoEntry), s.memo.slots[j]? = some (some x) →
    s.memo.slot hashed x.zfile x.page x.index = j ∧
      lastPut s.puts x.zfile x.page x.index = some (x, s.bufs.data x.group)
  within : s.memo.bytes ≤ max cap (lastLen s.puts)

/-- A new memo keeps it. -/
lemma new_kept (slots cap : ℕ) (hashed : Bool) : (new slots cap : MemoState α).Kept hashed cap where
  memo := ⟨Shared.accounts_empty, rfl⟩
  shaped := ⟨lt_max_of_lt_right Nat.one_pos, Or.inl rfl, lt_max_of_lt_right Nat.one_pos⟩
  cap_eq := rfl
  placed := by
    intro j x hx
    exact absurd hx (by simp [new, Memo.new])
  within := Nat.zero_le _

omit [Inhabited α] in
/-- A step that moves handles and buffers alone, and writes none that has a handle, keeps it. -/
lemma Kept.moved (hk : s.Kept hashed cap) (hmemo : s'.memo.Kept s'.bufs s'.reads s'.taken)
    (hsame : s'.memo = { s.memo with free := s'.memo.free, hits := s'.memo.hits })
    (hputs : s'.puts = s.puts)
    (hdata : ∀ b ∈ s.memo.groups + s.reads, s'.bufs.data b = s.bufs.data b) :
    s'.Kept hashed cap ∧ ∀ b ∈ s.reads, s'.bufs.data b = s.bufs.data b := by
  refine ⟨⟨hmemo, ?_, ?_, ?_, ?_⟩, fun b hb => hdata b (Multiset.mem_add.mpr (Or.inr hb))⟩
  · rw [hsame]
    exact ⟨hk.shaped.pos, hk.shaped.made, hk.shaped.sweep_lt⟩
  · rw [hsame]
    exact hk.cap_eq
  · intro j x hx
    rw [hsame] at hx
    obtain ⟨hslot, hlast⟩ := hk.placed j x hx
    rw [hputs, hdata _ (Multiset.mem_add.mpr (Or.inl (Memo.mem_groups hx)))]
    refine ⟨?_, hlast⟩
    rw [← hslot]
    exact Memo.slot_congr (by rw [hsame]) _ _ _
  · rw [hputs, hsame]
    exact hk.within

/-- **A put keeps it**, and writes no buffer. -/
lemma Kept.put {e : MemoEntry} (hk : s.Kept hashed cap) (hread : e.group ∈ s.reads) :
    (s.step hashed (.put e) = trap .overflow ∧ 2 ^ 64 ≤ s.memo.bytes + e.len) ∨
      ∃ s', s.step hashed (.put e) = ok s' ∧ s'.Kept hashed cap ∧ s'.bufs.data = s.bufs.data := by
  have hmemo := hk.memo
  rw [← Multiset.coe_eq_coe.mpr (List.perm_cons_erase hread).symm, ← Multiset.cons_coe] at hmemo
  rw [step, if_pos hread]
  rcases Memo.put_spec hashed hmemo hk.shaped with ⟨htrap, hbig⟩ | ⟨m', h', hrun, hkept,
    hdata, hplaced⟩
  · refine Or.inl ⟨?_, hbig⟩
    rw [htrap]
    rfl
  · refine Or.inr
      ⟨_, by rw [hrun]; rfl, ⟨hkept, hplaced.shaped, hplaced.cap_eq.trans hk.cap_eq, ?_, ?_⟩, hdata⟩
    · intro j x hx
      dsimp only at hx ⊢
      rw [hdata, Memo.slot_congr hplaced.n_eq]
      rcases hplaced.fewer j x hx with ⟨rfl, rfl⟩ | ⟨hj, hold⟩
      · exact ⟨rfl, lastPut_concat_self _ _⟩
      · obtain ⟨hslot, hlast⟩ := hk.placed j x hold
        refine ⟨hslot, ?_⟩
        rw [lastPut_concat_of_ne, hlast]
        rintro ⟨hz, hp, hi⟩
        dsimp only at hz hp hi
        rw [← hslot, hz, hp, hi] at hj
        exact hj rfl
    · dsimp only
      rw [lastLen_concat, ← hk.cap_eq]
      exact hplaced.within

/-- **A step keeps it**, and what a read holds stays as it is. -/
lemma Kept.step (hk : s.Kept hashed cap) (hstep : s.step hashed op = ok s') :
    s'.Kept hashed cap ∧ ∀ b ∈ s.reads, s'.bufs.data b = s.bufs.data b := by
  have ha := hk.memo.accounts
  have hwhole := hk.memo.whole
  cases op with
  | get zfile page index =>
      rw [MemoState.step] at hstep
      rcases Memo.get_spec s.bufs hashed hk.shaped zfile page index with
        hget | ⟨e, hat, -, -, -, hget⟩
      · rw [hget, ok_bind] at hstep
        cases hstep
        exact hk.moved hk.memo rfl rfl (fun b _ => rfl)
      · rw [hget, ok_bind] at hstep
        cases hstep
        refine hk.moved ⟨?_, hwhole⟩ rfl rfl (fun b _ => rfl)
        have hclone := ha.clone (Multiset.mem_add.mpr (Or.inl (Memo.mem_groups hat)))
        rw [← Multiset.add_cons, Multiset.cons_coe] at hclone
        exact hclone
  | put e =>
      by_cases hread : e.group ∈ s.reads
      · rcases hk.put hread with ⟨htrap, -⟩ | ⟨s₁, hrun, hkept, hdata⟩
        · rw [htrap] at hstep
          cases hstep
        · rw [hrun] at hstep
          cases hstep
          exact ⟨hkept, fun b _ => congrFun hdata b⟩
      · rw [MemoState.step, if_neg hread] at hstep
        cases hstep
  | takeFree =>
      obtain ⟨free, h', b, htake, hkept, hdata⟩ := Memo.takeFree_spec hk.memo
      rw [MemoState.step, htake] at hstep
      cases hstep
      exact hk.moved hkept rfl rfl hdata
  | make =>
      rw [MemoState.step] at hstep
      cases hstep
      refine hk.moved ⟨?_, hwhole⟩ rfl rfl (fun b hb => ha.data_make hb)
      have hmake := ha.make
      rw [← Multiset.add_cons, Multiset.cons_coe] at hmake
      exact hmake
  | write b x =>
      rw [MemoState.step] at hstep
      by_cases hb : b ∈ s.taken
      · rw [if_pos hb] at hstep
        cases hstep
        exact hk.moved ⟨ha.write x, hwhole⟩ rfl rfl
          (fun c hc => ha.data_write (Multiset.mem_add.mpr (Or.inr hb)) x hc)
      · rw [if_neg hb] at hstep
        cases hstep
  | wrap b =>
      rw [MemoState.step] at hstep
      by_cases hb : b ∈ s.taken
      · rw [if_pos hb] at hstep
        cases hstep
        refine hk.moved ⟨?_, hwhole⟩ rfl rfl (fun c _ => rfl)
        rw [Multiset.coe_eq_coe.mpr (List.perm_cons_erase hb), ← Multiset.cons_coe, Multiset.add_cons] at ha
        have hwrap := ha.wrap
        rw [← Multiset.add_cons, Multiset.cons_coe] at hwrap
        exact hwrap
      · rw [if_neg hb] at hstep
        cases hstep
  | clone b =>
      rw [MemoState.step] at hstep
      by_cases hb : b ∈ s.reads
      · rw [if_pos hb] at hstep
        cases hstep
        refine hk.moved ⟨?_, hwhole⟩ rfl rfl (fun c _ => rfl)
        have hclone := ha.clone (Multiset.mem_add.mpr (Or.inr hb))
        rw [← Multiset.add_cons, Multiset.cons_coe] at hclone
        exact hclone
      · rw [if_neg hb] at hstep
        cases hstep
  | drop b =>
      rw [MemoState.step] at hstep
      by_cases hb : b ∈ s.reads
      · rw [if_pos hb] at hstep
        cases hstep
        refine hk.moved ⟨?_, hwhole⟩ rfl rfl (fun c _ => rfl)
        rw [Multiset.coe_eq_coe.mpr (List.perm_cons_erase hb), ← Multiset.cons_coe, Multiset.add_cons] at ha
        exact ha.drop
      · rw [if_neg hb] at hstep
        cases hstep

/-- **Any steps keep** the entries true and the memo within its bound. -/
lemma Kept.run (hk : s.Kept hashed cap) (ops : List (MemoOp α)) (hrun : s.run hashed ops = ok s') :
    s'.Kept hashed cap := by
  induction ops generalizing s with
  | nil =>
      cases hrun
      exact hk
  | cons op ops ih =>
      rw [MemoState.run, List.foldlM_cons] at hrun
      cases hstep : s.step hashed op with
      | ok s₁ =>
          rw [hstep, ok_bind] at hrun
          exact ih (hk.step hstep).1 hrun
      | err e =>
          rw [hstep, err_bind] at hrun
          cases hrun
      | trap t =>
          rw [hstep, trap_bind] at hrun
          cases hrun

/-- A step panics only at a put whose length, on top of those held, is no machine word. -/
lemma Kept.panics (hk : s.Kept hashed cap) {t : Trap} (htrap : s.step hashed op = trap t) :
    ∃ e, op = .put e ∧ 2 ^ 64 ≤ s.memo.bytes + e.len := by
  cases op with
  | get zfile page index =>
      rw [MemoState.step] at htrap
      rcases Memo.get_spec s.bufs hashed hk.shaped zfile page index with
        hget | ⟨e, -, -, -, -, hget⟩
      · rw [hget] at htrap
        cases htrap
      · rw [hget] at htrap
        cases htrap
  | put e =>
      by_cases hread : e.group ∈ s.reads
      · rcases hk.put hread with ⟨-, hbig⟩ | ⟨s₁, hrun, -⟩
        · exact ⟨e, rfl, hbig⟩
        · rw [hrun] at htrap
          cases htrap
      · rw [MemoState.step, if_neg hread] at htrap
        cases htrap
  | takeFree => cases htrap
  | make => cases htrap
  | write b x =>
      rw [MemoState.step] at htrap
      split_ifs at htrap
  | wrap b =>
      rw [MemoState.step] at htrap
      split_ifs at htrap
  | clone b =>
      rw [MemoState.step] at htrap
      split_ifs at htrap
  | drop b =>
      rw [MemoState.step] at htrap
      split_ifs at htrap

/-- What is asked of the memo after a call: a get answers nothing, or the entry last put under the
group's number, in whose buffer is what was in it then; the bytes counted are those of the entries
held, and within the cap or the last put alone; a buffer given out is held by no entry, no read and
no other taker; what a read holds stays as it is whatever comes next; and nothing that comes next
panics but a put that makes the lengths held more than a word. -/
structure Exact (hashed : Bool) (cap : ℕ) (s : MemoState α) : Prop where
  answers : ∀ (zfile : UInt64) (page : UInt32) (index : UInt8), ∃ memo bufs found,
    s.memo.get s.bufs hashed zfile page index = ok (memo, bufs, found) ∧
      ∀ group len first count, found = some (group, len, first, count) →
        lastPut s.puts zfile page index = some (⟨zfile, page, index, group, len, first, count⟩, bufs.data group)
  bytes_eq : s.memo.bytes = (s.memo.entries.map (·.len)).sum
  bytes_le : s.memo.bytes ≤ max cap (lastLen s.puts)
  spare : ∀ memo bufs b, s.memo.takeFree s.bufs = (memo, bufs, b) →
    (∀ e ∈ s.memo.entries, e.group ≠ b) ∧ b ∉ s.reads ∧ b ∉ s.taken
  lent : ∀ op s', s.step hashed op = ok s' → ∀ b ∈ s.reads, s'.bufs.data b = s.bufs.data b
  panics : ∀ op t, s.step hashed op = trap t → ∃ e, op = .put e ∧ 2 ^ 64 ≤ s.memo.bytes + e.len

omit [Inhabited α] in
/-- A hit is of the last put. -/
lemma Kept.answers (hk : s.Kept hashed cap) (zfile : UInt64) (page : UInt32) (index : UInt8) :
    ∃ memo bufs found, s.memo.get s.bufs hashed zfile page index = ok (memo, bufs, found) ∧
      ∀ group len first count, found = some (group, len, first, count) →
        lastPut s.puts zfile page index = some (⟨zfile, page, index, group, len, first, count⟩, bufs.data group) := by
  rcases Memo.get_spec s.bufs hashed hk.shaped zfile page index with
    hget | ⟨e, hat, rfl, rfl, rfl, hget⟩
  · refine ⟨_, _, _, hget, ?_⟩
    intro group len first count hnone
    cases hnone
  · refine ⟨_, _, _, hget, ?_⟩
    intro group len first count hsome
    cases hsome
    exact (hk.placed _ e hat).2

/-- A buffer given out is nobody else's. -/
lemma Kept.spare (hk : s.Kept hashed cap) {memo : Memo} {bufs : Shared α} {b : ℕ}
    (htake : s.memo.takeFree s.bufs = (memo, bufs, b)) :
    (∀ e ∈ s.memo.entries, e.group ≠ b) ∧ b ∉ s.reads ∧ b ∉ s.taken := by
  obtain ⟨free, h', b', hrun, hkept, -⟩ := Memo.takeFree_spec hk.memo
  rw [htake, Prod.mk.injEq, Prod.mk.injEq] at hrun
  obtain ⟨-, -, rfl⟩ := hrun
  have hunheld :=
    hkept.accounts.unheld b (Multiset.mem_add.mpr (Or.inr (Multiset.mem_cons_self _ _)))
  have hapart := hkept.accounts.apart
  rw [Multiset.add_cons] at hapart
  refine ⟨?_, fun hread => hunheld (Multiset.mem_add.mpr (Or.inr hread)), fun htaken => ?_⟩
  · rintro e he rfl
    exact hunheld (Multiset.mem_add.mpr (Or.inl (List.mem_map.mpr ⟨e, he, rfl⟩)))
  · exact (Multiset.nodup_cons.mp hapart).1 (Multiset.mem_add.mpr (Or.inr htaken))

end MemoState

/-- **The memo answers only what was put**, for every number of slots and every cap, after every run
of calls, of whatever groups, lengths and handles. -/
theorem memo_exact {α : Type} [Inhabited α] (slots cap : ℕ) (hashed : Bool) (ops : List (MemoOp α))
    (s : MemoState α)
    (h : (MemoState.new slots cap).run hashed ops = ok s) : s.Exact hashed cap := by
  have hk := (MemoState.new_kept slots cap hashed).run ops h
  exact
    { answers := hk.answers
      bytes_eq := hk.memo.whole
      bytes_le := hk.within
      spare := fun memo bufs b htake => hk.spare htake
      lent := fun op s' hstep => (hk.step hstep).2
      panics := fun op t htrap => hk.panics htrap }

/-- Three groups through two slots under a cap of a hundred: the second is displaced while its read
holds it, and the third is longer than the cap. -/
def threeGroups : List (MemoOp ℕ) :=
  [.takeFree, .write 0 7, .wrap 0, .put ⟨1, 0, 0, 0, 60, 0, 4⟩, .takeFree, .write 1 8, .wrap 1,
    .clone 1, .put ⟨1, 0, 1, 1, 70, 4, 4⟩, .get 1 0 0, .get 1 0 1, .takeFree, .write 0 9, .wrap 0,
    .put ⟨2, 5, 3, 0, 150, 0, 2⟩, .drop 1, .get 2 5 3]

theorem memo_exact_three : ∃ s, (MemoState.new 2 100).run true threeGroups = ok s ∧
    s.Exact true 100 :=
  ⟨_, rfl, memo_exact 2 100 true threeGroups _ rfl⟩

end Supdb

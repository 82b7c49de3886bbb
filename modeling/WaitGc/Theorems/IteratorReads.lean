/-
  WAITGC verification — what the reads of an iterator return.

  `kv_iterator_reads`: the records of all reads together are the keys of the
  entries that match, in the order of their slots; each read but the last gives
  as many as fit, and the one that reaches the end of the table says so.  The
  cursor is an `int`: a table of 2^31 slots has no end (`kv_iterator_reads_endless`).
-/
import WaitGc.Theorems.IteratorHandles

namespace WaitGc

open Outcome Function

/-- The records that fit into the buffer. -/
def MAX_RECORDS : ℕ := (ITER_BUF_LIMIT - 4) / (4 + ITER_KEY_LEN)

/-! ## The buffer as the host sees it -/

/-- The 32-bit number from byte `offset` on. -/
def hostWord (data : ℕ → ℕ) (offset : ℕ) : ℕ :=
  data offset + 256 * data (offset + 1) + 65536 * data (offset + 2) + 16777216 * data (offset + 3)

/-- The keys of the records from byte `offset` to byte `stop`. -/
def recordsFrom (data : ℕ → ℕ) (stop : ℕ) : ℕ → ℕ → List (List ℕ)
  | 0, _ => []
  | fuel + 1, offset =>
    if stop ≤ offset then []
    else
      let len := hostWord data offset
      (List.range len).map (fun k => data (offset + 4 + k)) ::
        recordsFrom data stop fuel (offset + 4 + (len + 3) / 4 * 4)

/-- The number at the head of the buffer. -/
def KvResult.count (r : KvResult) : ℕ := hostWord r.read 0

/-- The records of the buffer. -/
def KvResult.records (r : KvResult) : List (List ℕ) := recordsFrom r.read r.result r.result 4

/-- The key of an entry, as iterators give it. -/
def iterKey (e : MappingEntry) : List ℕ := (List.range ITER_KEY_LEN).map fun k => (e.keyByte k).toNat

/-- The slots from `p` on whose entries match. -/
def selectedFrom (c : KvCfg) (t : KvTable) (h : KvIterContext) (p : ℕ) : List ℕ :=
  (List.range' p (c.hashSlots - p)).filter fun j => h.selects (t j)

variable {c : KvCfg} {t : KvTable} {s s₀ : IterHandles} {h : KvIterContext} {cmd : KvIterCommand}
  {v : IterVars} {slots : List ℕ} {data buf : ℕ → ℕ} {n p : ℕ}

theorem hostWord_wordByte (hn : n < 2 ^ 32) (hdata : ∀ k < 4, data (p + k) = wordByte n k) :
    hostWord data p = n := by
  have h0 := hdata 0 (by decide)
  have h1 := hdata 1 (by decide)
  have h2 := hdata 2 (by decide)
  have h3 := hdata 3 (by decide)
  unfold hostWord
  rw [← Nat.add_zero p, h0, Nat.add_zero, h1, h2, h3]
  simp only [wordByte, Nat.reducePow]
  omega

/-- The records of the slots, from byte `offset` on. -/
def HasRecords (t : KvTable) (data : ℕ → ℕ) (offset : ℕ) (slots : List ℕ) : Prop :=
  ∀ i j, slots[i]? = some j →
    (∀ k < 4, data (offset + 20 * i + k) = wordByte ITER_KEY_LEN k) ∧
    ∀ k < ITER_KEY_LEN, data (offset + 20 * i + 4 + k) = ((t j).keyByte k).toNat

/-- **The host reads** the records that were written. -/
theorem HasRecords.recordsFrom {offset : ℕ} (hr : HasRecords t data offset slots) (fuel : ℕ)
    (hfuel : slots.length ≤ fuel) :
    recordsFrom data (offset + 20 * slots.length) fuel offset = slots.map fun j => iterKey (t j) := by
  induction slots generalizing offset fuel with
  | nil =>
    cases fuel with
    | zero => rfl
    | succ fuel => exact if_pos (by simp)
  | cons j slots ih =>
    obtain ⟨fuel, rfl⟩ : ∃ m, fuel = m + 1 := ⟨fuel - 1, by simp at hfuel; omega⟩
    obtain ⟨hlen, hkey⟩ := hr 0 j rfl
    have hword : hostWord data offset = ITER_KEY_LEN := hostWord_wordByte (by decide) hlen
    rw [WaitGc.recordsFrom, if_neg (by simp)]
    dsimp only
    rw [hword, List.map_cons]
    congr 1
    · refine List.map_congr_left fun k hk => ?_
      exact hkey k (List.mem_range.1 hk)
    · have hrest : HasRecords t data (offset + 20) slots := by
        intro i j' hi
        have hi' := hr (i + 1) j' (by simpa using hi)
        rw [show offset + 20 * (i + 1) = offset + 20 + 20 * i by omega] at hi'
        exact hi'
      have htail := ih hrest fuel (by simpa using hfuel)
      rw [show offset + 20 * (j :: slots).length = offset + 20 + 20 * slots.length by
        rw [List.length_cons]; omega]
      exact htail

/-! ## The loop -/

/-- The variables after the records of the slots were written. -/
structure Filled (t : KvTable) (v : IterVars) (slots : List ℕ) : Prop where
  offset : v.bufOffset = 4 + 20 * slots.length
  count : v.nrKeys = slots.length
  records : HasRecords t v.buf 4 slots

theorem Filled.setPos (hw : Filled t v slots) (pos : ℤ) : Filled t { v with pos } slots :=
  ⟨hw.offset, hw.count, hw.records⟩

theorem Filled.put (hw : Filled t v slots) (j : ℕ) : Filled t (v.put (t j)) (slots ++ [j]) where
  offset := by
    show v.bufOffset + 4 + (ITER_KEY_LEN + 3) / 4 * 4 = _
    rw [hw.offset, List.length_append, List.length_singleton]
    unfold ITER_KEY_LEN
    omega
  count := by
    rw [List.length_append, ← hw.count]
    rfl
  records i j' hi := by
    have hoff := hw.offset
    simp only [IterVars.put, bufCopy]
    rcases Nat.lt_or_ge i slots.length with hlt | hge
    · rw [List.getElem?_append_left hlt] at hi
      obtain ⟨hlen, hkey⟩ := hw.records i j' hi
      refine ⟨fun k hk => ?_, fun k hk => ?_⟩
      · rw [if_neg (by omega), if_neg (by omega)]
        exact hlen k hk
      · unfold ITER_KEY_LEN at hk
        rw [if_neg (by omega), if_neg (by omega)]
        exact hkey k hk
    · obtain rfl : i = slots.length := by
        have hlt := (List.getElem?_eq_some_iff.1 hi).1
        rw [List.length_append, List.length_singleton] at hlt
        omega
      rw [List.getElem?_append_right le_rfl, Nat.sub_self] at hi
      obtain rfl : j = j' := by simpa using hi
      refine ⟨fun k hk => ?_, fun k hk => ?_⟩
      · rw [if_neg (by omega), if_pos (by omega)]
        congr 1
        omega
      · unfold ITER_KEY_LEN at hk ⊢
        rw [if_pos (by omega)]
        congr 2
        omega

theorem selectedFrom_end : selectedFrom c t h c.hashSlots = [] := by
  rw [selectedFrom, Nat.sub_self]
  rfl

theorem selectedFrom_cons (hp : p < c.hashSlots) (hsel : h.selects (t p) = true) :
    selectedFrom c t h p = p :: selectedFrom c t h (p + 1) := by
  rw [selectedFrom, show c.hashSlots - p = c.hashSlots - (p + 1) + 1 by omega, List.range'_succ,
    List.filter_cons, if_pos hsel]
  rfl

theorem selectedFrom_skip (hp : p < c.hashSlots) (hsel : ¬ h.selects (t p) = true) :
    selectedFrom c t h p = selectedFrom c t h (p + 1) := by
  rw [selectedFrom, show c.hashSlots - p = c.hashSlots - (p + 1) + 1 by omega, List.range'_succ,
    List.filter_cons, if_neg hsel]
  rfl

/-- What the loop has done when it stops at slot `q`: it filled the records of `taken`. -/
structure Swept (c : KvCfg) (t : KvTable) (h : KvIterContext) (p : ℕ) (slots : List ℕ) (v : IterVars)
    (q : ℕ) (taken : List ℕ) : Prop where
  pos : v.pos = q
  le : q ≤ c.hashSlots
  filled : Filled t v (slots ++ taken)
  split : selectedFrom c t h p = taken ++ selectedFrom c t h q
  room : (slots ++ taken).length ≤ MAX_RECORDS
  full : q < c.hashSlots → (slots ++ taken).length = MAX_RECORDS ∧ h.selects (t q) = true

/-- **The loop** stops at the end of the table, or at an entry that does not fit. -/
theorem iterLoop_scans (hslots : c.hashSlots < 2 ^ 31) {fuel : ℕ} (hv : v.pos = p) (hp : p < c.hashSlots)
    (hfuel : c.hashSlots - p < fuel) (hw : Filled t v slots) (hroom : slots.length ≤ MAX_RECORDS) :
    ∃ v' q taken, iterLoop c t h fuel v = .ok (v', decide (q = c.hashSlots)) ∧
      Swept c t h p slots v' q taken := by
  induction fuel generalizing v p slots with
  | zero => omega
  | succ fuel ih =>
    have hpos : ulong v.pos = p := by
      rw [hv]
      unfold ulong
      omega
    have hnext : int32 (v.pos + 1) = ((p + 1 : ℕ) : ℤ) := by
      rw [hv]
      unfold int32
      rw [Int.bmod_def]
      omega
    have hnext' : ulong ((p + 1 : ℕ) : ℤ) = p + 1 := by
      unfold ulong
      omega
    rw [iterLoop, hpos, if_pos hp]
    dsimp only
    have hlimit : ITER_BUF_LIMIT < v.bufOffset + 4 + ITER_KEY_LEN ↔ MAX_RECORDS ≤ slots.length := by
      rw [hw.offset]
      unfold MAX_RECORDS ITER_BUF_LIMIT ITER_KEY_LEN
      omega
    by_cases hsel : h.selects (t p) = true
    · by_cases hfull : MAX_RECORDS ≤ slots.length
      · -- the buffer is full, and the slot is left for the next read
        rw [if_pos ⟨hsel, hlimit.2 hfull⟩]
        refine ⟨v, p, [], ?_, ⟨hv, hp.le, by rwa [List.append_nil], rfl, by rwa [List.append_nil], fun _ => ?_⟩⟩
        · rw [decide_eq_false (Nat.ne_of_lt hp)]
        · rw [List.append_nil]
          exact ⟨le_antisymm hroom hfull, hsel⟩
      · rw [if_neg fun hc => hfull (hlimit.1 hc.2), if_pos hsel]
        have hput := (hw.put p).setPos ((p + 1 : ℕ) : ℤ)
        have hlen : (slots ++ [p]).length ≤ MAX_RECORDS := by
          rw [List.length_append, List.length_singleton]
          omega
        rw [show (v.put (t p)).pos = v.pos from rfl, hnext, hnext']
        by_cases hend : p + 1 = c.hashSlots
        · rw [if_pos hend]
          refine ⟨_, p + 1, [p], ?_, ⟨rfl, hend.le, hput, ?_, hlen, fun hlt => absurd hend hlt.ne⟩⟩
          · rw [decide_eq_true hend]
          · rw [selectedFrom_cons hp hsel]
            rfl
        · rw [if_neg hend]
          obtain ⟨v', q, taken, hrun, hs⟩ := ih rfl (by omega) (by omega) hput hlen
          refine ⟨v', q, p :: taken, hrun, ⟨hs.pos, hs.le, ?_, ?_, ?_, fun hq => ?_⟩⟩
          · rw [List.append_cons]
            exact hs.filled
          · rw [selectedFrom_cons hp hsel, hs.split]
            rfl
          · rw [List.append_cons]
            exact hs.room
          · rw [List.append_cons]
            exact hs.full hq
    · rw [if_neg fun hc => hsel hc.1, if_neg hsel]
      rw [hnext, hnext']
      have hskip := hw.setPos ((p + 1 : ℕ) : ℤ)
      by_cases hend : p + 1 = c.hashSlots
      · rw [if_pos hend]
        refine ⟨{ v with pos := ((p + 1 : ℕ) : ℤ) }, p + 1, [], ?_,
          ⟨rfl, hend.le, ?_, ?_, ?_, fun hlt => absurd hend hlt.ne⟩⟩
        · rw [decide_eq_true hend]
        · rwa [List.append_nil]
        · rw [selectedFrom_skip hp hsel]
          rfl
        · rwa [List.append_nil]
      · rw [if_neg hend]
        obtain ⟨v', q, taken, hrun, hs⟩ := ih rfl (by omega) (by omega) hskip hroom
        refine ⟨v', q, taken, hrun, ⟨hs.pos, hs.le, hs.filled, ?_, hs.room, hs.full⟩⟩
        rw [selectedFrom_skip hp hsel, hs.split]

/-! ## A read -/

/-- What a read that goes from slot `p` to slot `q` returns. -/
structure ReadTo (c : KvCfg) (t : KvTable) (h : KvIterContext) (p q : ℕ) (taken : List ℕ) (r : KvResult) :
    Prop where
  le : q ≤ c.hashSlots
  split : selectedFrom c t h p = taken ++ selectedFrom c t h q
  room : taken.length ≤ MAX_RECORDS
  full : q < c.hashSlots → taken.length = MAX_RECORDS ∧ h.selects (t q) = true
  size : r.result = 4 + 20 * taken.length
  count : r.count = taken.length
  records : r.records = taken.map fun j => iterKey (t j)
  status : r.status = if p < c.hashSlots ∧ q = c.hashSlots then ITER_END else 0

theorem Filled.records_eq (hw : Filled t v slots) (hroom : slots.length ≤ MAX_RECORDS) (value : HostData)
    (status : ℕ) :
    let r : KvResult := ⟨status, v.bufOffset,
      value.performRead (bufCopy v.buf 0 (wordByte v.nrKeys) 4) v.bufOffset 0 0 v.bufOffset⟩
    r.count = slots.length ∧ r.records = slots.map fun j => iterKey (t j) := by
  intro r
  have hsize : v.bufOffset ≤ 1024 := by
    rw [hw.offset]
    unfold MAX_RECORDS ITER_BUF_LIMIT ITER_KEY_LEN at hroom
    omega
  have hbyte (k : ℕ) (hk : k < v.bufOffset) : r.read k = bufCopy v.buf 0 (wordByte v.nrKeys) 4 k := by
    show value.performRead _ _ _ _ _ _ = _
    rw [value.performRead_apply _ _ _ _ _ _ le_rfl hk, Nat.zero_add, u64, Nat.mod_eq_of_lt (by omega)]
  have hoff := hw.offset
  constructor
  · show hostWord r.read 0 = _
    rw [← hw.count]
    refine hostWord_wordByte ?_ fun k hk => ?_
    · rw [hw.count]
      omega
    · rw [hbyte _ (by omega), bufCopy, if_pos (by omega)]
      congr 1
      omega
  · show recordsFrom r.read v.bufOffset v.bufOffset 4 = _
    have hr : HasRecords t r.read 4 slots := by
      intro i j hi
      have hlt := (List.getElem?_eq_some_iff.1 hi).1
      obtain ⟨hlen, hkey⟩ := hw.records i j hi
      refine ⟨fun k hk => ?_, fun k hk => ?_⟩
      · rw [hbyte _ (by omega), bufCopy, if_neg (by omega)]
        exact hlen k hk
      · unfold ITER_KEY_LEN at hk
        rw [hbyte _ (by omega), bufCopy, if_neg (by omega)]
        exact hkey k hk
    have hread := hr.recordsFrom v.bufOffset (by omega)
    rwa [← hoff] at hread

/-- **A read** of a context at slot `p`. -/
theorem iterRead_reads (hslots : c.hashSlots < 2 ^ 31) (hpos : h.currentPos = p) (hp : p ≤ c.hashSlots)
    (value : HostData) :
    ∃ r buf q taken, iterRead c t h value = .ok (r, { h with buf, currentPos := q }) ∧
      ReadTo c t h p q taken r := by
  have hstart : int32 (h.currentPos : ℤ) = (p : ℤ) := by
    rw [hpos]
    unfold int32
    rw [Int.bmod_def]
    omega
  have hempty : Filled t ⟨h.buf, 4, 0, p⟩ [] := ⟨rfl, rfl, fun _ _ hi => by simp at hi⟩
  unfold iterRead
  rw [hstart]
  rcases Nat.lt_or_eq_of_le hp with hlt | hend
  · obtain ⟨v', q, taken, hrun, hs⟩ := iterLoop_scans (h := h) hslots rfl hlt
      (Nat.lt_succ_of_le (Nat.sub_le _ _)) hempty (Nat.zero_le _)
    have hq : ulong v'.pos = q := by
      rw [hs.pos]
      have hle := hs.le
      unfold ulong
      omega
    obtain ⟨hcount, hrecords⟩ := hs.filled.records_eq hs.room value
      (if decide (q = c.hashSlots) then ITER_END else 0)
    rw [hrun, ok_bind]
    dsimp only
    rw [hq]
    refine ⟨_, _, q, taken, rfl, hs.le, hs.split, hs.room, hs.full, hs.filled.offset, hcount, hrecords, ?_⟩
    simp only [hlt, true_and, decide_eq_true_eq]
  · subst hend
    have hstop : iterLoop c t h (c.hashSlots + 1) ⟨h.buf, 4, 0, (c.hashSlots : ℤ)⟩ =
        .ok (⟨h.buf, 4, 0, (c.hashSlots : ℤ)⟩, false) := by
      rw [iterLoop, if_neg]
      unfold ulong
      dsimp only
      omega
    obtain ⟨hcount, hrecords⟩ := hempty.records_eq (Nat.zero_le _) value 0
    rw [hstop, ok_bind]
    have hq : ulong ((c.hashSlots : ℕ) : ℤ) = c.hashSlots := by
      unfold ulong
      omega
    dsimp only
    rw [hq]
    refine ⟨_, _, c.hashSlots, [], rfl, le_rfl, rfl, Nat.zero_le _, fun hlt => absurd hlt (Nat.lt_irrefl _), rfl,
      hcount, hrecords, ?_⟩
    simp

/-! ## All reads -/

/-- The keys of the entries from slot `p` on that match. -/
def keysFrom (c : KvCfg) (t : KvTable) (h : KvIterContext) (p : ℕ) : List (List ℕ) :=
  (selectedFrom c t h p).map fun j => iterKey (t j)

/-- The reads give the keys in order, each as many as fit. -/
structure Enumerates (keys : List (List ℕ)) (rs : List KvResult) : Prop where
  chunk : ∀ i r, rs[i]? = some r → r.records = (keys.drop (MAX_RECORDS * i)).take MAX_RECORDS
  count : ∀ r ∈ rs, r.count = r.records.length
  size : ∀ r ∈ rs, r.result ≤ ITER_BUF_LIMIT
  all : (rs.map KvResult.records).flatten = keys.take (MAX_RECORDS * rs.length)

theorem maxRecords_eq : MAX_RECORDS = 51 := rfl

theorem Enumerates.nil (keys : List (List ℕ)) : Enumerates keys [] where
  chunk i r hi := by simp at hi
  count r hr := by simp at hr
  size r hr := by simp at hr
  all := by simp

/-- One read more, before the others. -/
theorem Enumerates.cons {keys : List (List ℕ)} {r : KvResult} {rs : List KvResult}
    (hr : r.records = keys.take MAX_RECORDS) (hcount : r.count = r.records.length)
    (hsize : r.result ≤ ITER_BUF_LIMIT) (hrs : Enumerates (keys.drop MAX_RECORDS) rs) :
    Enumerates keys (r :: rs) where
  chunk i r' hi := by
    cases i with
    | zero =>
      obtain rfl : r = r' := by simpa using hi
      exact hr
    | succ i =>
      rw [hrs.chunk i r' (by simpa using hi), List.drop_drop]
      congr 2
      rw [maxRecords_eq]
      omega
  count r' hr' := by
    rcases List.mem_cons.1 hr' with rfl | hr'
    · exact hcount
    · exact hrs.count r' hr'
  size r' hr' := by
    rcases List.mem_cons.1 hr' with rfl | hr'
    · exact hsize
    · exact hrs.size r' hr'
  all := by
    rw [List.map_cons, List.flatten_cons, hr, hrs.all, List.length_cons, Nat.mul_succ, Nat.add_comm,
      List.take_add]

section readTo
variable {q : ℕ} {taken : List ℕ} {r : KvResult} (hr : ReadTo c t h p q taken r)
include hr

theorem ReadTo.keys : r.records = (keysFrom c t h p).take MAX_RECORDS ∧
    keysFrom c t h q = (keysFrom c t h p).drop MAX_RECORDS := by
  have hsplit : keysFrom c t h p = r.records ++ keysFrom c t h q := by
    rw [keysFrom, hr.split, List.map_append, ← hr.records]
    rfl
  have hlen : r.records.length = taken.length := by rw [hr.records, List.length_map]
  rw [hsplit]
  rcases Nat.lt_or_eq_of_le hr.le with hlt | hend
  · have hfull := hlen.trans (hr.full hlt).1
    exact ⟨(List.take_left' hfull).symm, (List.drop_left' hfull).symm⟩
  · have hnil : keysFrom c t h q = [] := by
      rw [hend, keysFrom, selectedFrom_end]
      rfl
    have hroom := hlen.le.trans hr.room
    rw [hnil, List.append_nil]
    exact ⟨(List.take_of_length_le hroom).symm, (List.drop_eq_nil_of_le hroom).symm⟩

/-- The read reaches the end exactly if no more keys are left than fit. -/
theorem ReadTo.end_iff : q = c.hashSlots ↔ (keysFrom c t h p).length ≤ MAX_RECORDS := by
  constructor
  · intro hend
    have hdrop := congrArg List.length hr.keys.2
    rw [hend, keysFrom, selectedFrom_end, List.map_nil, List.length_nil, List.length_drop] at hdrop
    omega
  · intro hle
    by_contra hne
    have hlt := Nat.lt_of_le_of_ne hr.le hne
    have hdrop := hr.keys.2
    rw [List.drop_eq_nil_of_le hle, keysFrom, selectedFrom_cons hlt (hr.full hlt).2] at hdrop
    cases hdrop

theorem ReadTo.size_le : r.result ≤ ITER_BUF_LIMIT := by
  have hroom := hr.room
  rw [maxRecords_eq] at hroom
  rw [hr.size]
  unfold ITER_BUF_LIMIT
  omega

end readTo

/-- A read command. -/
def readCommand (iter : BitVec 8) (value : HostData) : KvIterCommand := ⟨.iterRead, iter, 0, 0, 0, value⟩

/-- Reads of the handle, one after the other. -/
def kvIterReads (c : KvCfg) (t : KvTable) (iter : BitVec 8) :
    List HostData → IterHandles → Except IterFault (List KvResult × IterHandles)
  | [], s => pure ([], s)
  | value :: values, s => do
    let (r, s) ← doPerformKvIterIo c t s (readCommand iter value) 0
    let (rs, s) ← kvIterReads c t iter values s
    pure (r :: rs, s)

/-- What reads that go from slot `p` to slot `q` return. -/
structure ReadsTo (c : KvCfg) (t : KvTable) (h : KvIterContext) (p q : ℕ) (rs : List KvResult) : Prop where
  enumerates : Enumerates (keysFrom c t h p) rs
  ends : ∀ i r, rs[i]? = some r → (r.status = ITER_END ↔
    p < c.hashSlots ∧ i = ((keysFrom c t h p).length - 1) / MAX_RECORDS)
  reached : q = c.hashSlots ↔
    p = c.hashSlots ∨ ((keysFrom c t h p).length - 1) / MAX_RECORDS < rs.length

/-- **One read more**, before the others. -/
theorem ReadTo.cons {p' q : ℕ} {taken : List ℕ} {r : KvResult} {rs : List KvResult} (hp : p ≤ c.hashSlots)
    (hr : ReadTo c t h p p' taken r) (hrs : ReadsTo c t h p' q rs) : ReadsTo c t h p q (r :: rs) := by
  obtain ⟨hrecords, hkeys⟩ := hr.keys
  have hlen := congrArg List.length hkeys
  rw [List.length_drop] at hlen
  have hend := hr.end_iff
  have hpnil : p = c.hashSlots → (keysFrom c t h p).length = 0 := by
    rintro rfl
    rw [keysFrom, selectedFrom_end]
    rfl
  refine ⟨.cons hrecords ?_ hr.size_le ?_, fun i r' hi => ?_, ?_⟩
  · rw [hr.count, hr.records, List.length_map]
  · rw [← hkeys]
    exact hrs.enumerates
  · cases i with
    | zero =>
      obtain rfl : r = r' := by simpa using hi
      rw [hr.status]
      split_ifs with hstatus
      · have hle := hend.1 hstatus.2
        rw [maxRecords_eq] at hle ⊢
        exact iff_of_true rfl ⟨hstatus.1, by omega⟩
      · refine iff_of_false (by decide) fun hc => hstatus ⟨hc.1, hend.2 ?_⟩
        rw [maxRecords_eq] at hc ⊢
        omega
    | succ i =>
      rw [hrs.ends i r' (by simpa using hi), maxRecords_eq]
      rw [maxRecords_eq] at hlen hend
      have hle := hr.le
      omega
  · rw [hrs.reached, List.length_cons, maxRecords_eq]
    rw [maxRecords_eq] at hlen hend
    omega

/-- A read of an open handle. -/
theorem kvIterRead_open {status : ℕ} {r : KvResult} {h' : KvIterContext}
    (hlt : cmd.iterHandle.toNat < ITER_HANDLES) (hopen : s cmd.iterHandle.toNat = .ctx h)
    (hread : iterRead c t h cmd.value = .ok (r, h')) :
    kvIterRead c t s cmd status = .ok (r, update s cmd.iterHandle.toNat (.ctx h')) := by
  unfold kvIterRead handleAt
  dsimp only
  rw [require_pos hlt, ok_bind, pure_bind, hopen]
  dsimp only
  rw [hread]
  rfl

/-- **The reads of an open handle**, from slot `p` on. -/
theorem kvIterReads_reads (hslots : c.hashSlots < 2 ^ 31) {iter : BitVec 8} (hlt : iter.toNat < ITER_HANDLES) :
    ∀ (values : List HostData) {s : IterHandles} {h : KvIterContext} {p : ℕ}, s iter.toNat = .ctx h →
      h.currentPos = p → p ≤ c.hashSlots →
      ∃ rs s' h', kvIterReads c t iter values s = .ok (rs, s') ∧ rs.length = values.length ∧
        s' iter.toNat = .ctx h' ∧ ReadsTo c t h p h'.currentPos rs
  | [], s, h, p, hopen, hpos, hp => by
    refine ⟨[], s, h, rfl, rfl, hopen, .nil _, fun i r hi => by simp at hi, ?_⟩
    rw [hpos]
    simp
  | value :: values, s, h, p, hopen, hpos, hp => by
    obtain ⟨r, buf, q, taken, hread, hr⟩ := iterRead_reads hslots hpos hp value
    have hupdate : update s iter.toNat (.ctx { h with buf, currentPos := q }) iter.toNat =
        .ctx { h with buf, currentPos := q } := update_self _ _ _
    obtain ⟨rs, s', h', hrun, hlen, hopen', hrs⟩ := kvIterReads_reads hslots hlt values hupdate rfl hr.le
    refine ⟨r :: rs, s', h', ?_, congrArg (· + 1) hlen, hopen', hr.cons hp ⟨hrs.enumerates, hrs.ends, hrs.reached⟩⟩
    have hcall : kvIterRead c t s (readCommand iter value) 0 =
        .ok (r, update s iter.toNat (.ctx { h with buf, currentPos := q })) :=
      kvIterRead_open hlt hopen hread
    rw [kvIterReads, show doPerformKvIterIo c t s (readCommand iter value) 0 = _ from hcall, ok_bind]
    dsimp only
    rw [hrun]
    rfl

/-- The keys that an iterator opened by the command is to give. -/
def iterKeys (c : KvCfg) (t : KvTable) (cmd : KvIterCommand) : List (List ℕ) :=
  keysFrom c t (iterContext cmd) 0

/-- The number of the read that reaches the end. -/
def lastRead (c : KvCfg) (t : KvTable) (cmd : KvIterCommand) : ℕ :=
  ((iterKeys c t cmd).length - 1) / MAX_RECORDS

/-- **An iterator gives every key that matches, once**, in the order of the slots. -/
theorem kv_iterator_reads (hslots : c.hashSlots < 2 ^ 31) (hopens : cmd.opens = true)
    (hfree : ∃ iter ∈ List.range' 1 16, (s iter).isNull = true) :
    ∃ r₀ s₀, doPerformKvIterIo c t s cmd 0 = .ok (r₀, s₀) ∧ ∀ values : List HostData,
      ∃ rs s' h', kvIterReads c t (BitVec.ofNat 8 r₀.result) values s₀ = .ok (rs, s') ∧
        rs.length = values.length ∧ s' r₀.result = .ctx h' ∧
        Enumerates (iterKeys c t cmd) rs ∧
        (lastRead c t cmd < rs.length → (rs.map KvResult.records).flatten = iterKeys c t cmd) ∧
        (∀ i r, rs[i]? = some r → (r.status = ITER_END ↔ i = lastRead c t cmd)) ∧
        (h'.currentPos = c.hashSlots ↔ lastRead c t cmd < rs.length) := by
  obtain ⟨iter, hmem, -, hopen⟩ := kvIterOpen_free cmd 0 hfree
  have hiter : iter < ITER_HANDLES := by
    have := List.mem_range'_1.1 hmem
    unfold ITER_HANDLES
    omega
  have hnat : (BitVec.ofNat 8 iter).toNat = iter := by
    rw [BitVec.toNat_ofNat]
    unfold ITER_HANDLES at hiter
    omega
  refine ⟨_, _, (doPerform_opens hopens).trans (congrArg Except.ok hopen), fun values => ?_⟩
  have hlt : (BitVec.ofNat 8 iter).toNat < ITER_HANDLES := by rwa [hnat]
  have hctx : update s iter (.ctx (iterContext cmd)) (BitVec.ofNat 8 iter).toNat = .ctx (iterContext cmd) := by
    rw [hnat, update_self]
  obtain ⟨rs, s', h', hrun, hlen, hopen', hrs⟩ :=
    kvIterReads_reads (t := t) (p := 0) hslots hlt values hctx rfl (Nat.zero_le _)
  have hpos := c.hashSlots_pos
  refine ⟨rs, s', h', hrun, hlen, by rw [← hopen', hnat], hrs.enumerates, fun hlast => ?_, fun i r hi => ?_, ?_⟩
  · rw [hrs.enumerates.all]
    refine List.take_of_length_le ?_
    unfold lastRead iterKeys at hlast
    rw [maxRecords_eq] at hlast ⊢
    omega
  · rw [hrs.ends i r hi, and_iff_right hpos]
    rfl
  · rw [hrs.reached, or_iff_right (Nat.ne_of_lt hpos)]
    rfl

/-- 60 slots and a page of storage. -/
def sixtySlots : KvCfg where
  hashSlots := 60
  storageSize := 4096
  hashSlots_pos := by decide
  hashSlots_lt := by decide
  storageSize_lt := page_lt

/-- The slots from 4 on are live, and hold a key each. -/
def manyEntries : KvTable := fun i =>
  if 4 ≤ i then ⟨1 :: .ofNat 8 i :: .replicate 16 0, 4 * i, 4, NO_SLOT⟩ else .init

/-- The second read gets what the first one has no room for. -/
theorem kv_iterator_reads_twoReads :
    ∃ r₀ s₀ rs s', doPerformKvIterIo sixtySlots manyEntries (iterHandlesInit true)
        (iterCommand .iterReq 0 ITER_OPTION_OPEN) 0 = .ok (r₀, s₀) ∧
      kvIterReads sixtySlots manyEntries (BitVec.ofNat 8 r₀.result)
        (.replicate 2 ⟨fun n => 4096 * n, fun _ => 0⟩) s₀ = .ok (rs, s') ∧
      (rs.map KvResult.records).flatten =
        (List.range' 4 56).map (fun i => 1 :: i :: .replicate 14 0) ∧
      ∀ i r, rs[i]? = some r → (r.status = ITER_END ↔ i = 1) := by
  have hlast : lastRead sixtySlots manyEntries (iterCommand .iterReq 0 ITER_OPTION_OPEN) = 1 := by decide +kernel
  have hkeys : iterKeys sixtySlots manyEntries (iterCommand .iterReq 0 ITER_OPTION_OPEN) =
      (List.range' 4 56).map (fun i => 1 :: i :: .replicate 14 0) := by decide +kernel
  obtain ⟨r₀, s₀, hopen, hreads⟩ := kv_iterator_reads (c := sixtySlots) (t := manyEntries)
    (s := iterHandlesInit true) (by decide)
    (show (iterCommand .iterReq 0 ITER_OPTION_OPEN).opens = true by decide) ⟨1, by decide, rfl⟩
  obtain ⟨rs, s', h', hrun, hlen, -, -, hall, hend, -⟩ := hreads (.replicate 2 ⟨fun n => 4096 * n, fun _ => 0⟩)
  rw [hlast] at hall hend
  rw [hkeys, hlen] at hall
  exact ⟨r₀, s₀, rs, s', hopen, hrun, hall (by decide), hend⟩

/-! ## Tables that an `int` does not count -/

/-- **The loop never reaches the end** of a table of 2^31 slots or more. -/
theorem iterLoop_noEnd (hslots : 2 ^ 31 ≤ c.hashSlots) {fuel : ℕ} (hlow : -2 ^ 31 ≤ v.pos)
    (hhigh : v.pos < 2 ^ 31) (hfuel : v.pos < 0 ∧ 0 < fuel ∨ 2 ^ 31 - v.pos < fuel) :
    ∃ v', iterLoop c t h fuel v = .ok (v', false) := by
  have hlt := c.hashSlots_lt
  induction fuel generalizing v with
  | zero => omega
  | succ fuel ih =>
    rw [iterLoop]
    by_cases hin : ulong v.pos < c.hashSlots
    · have hpos : 0 ≤ v.pos := by
        by_contra hneg
        unfold ulong at hin
        omega
      -- the next position is one more, or the least `int`
      have hnext : int32 (v.pos + 1) = v.pos + 1 ∧ v.pos + 1 < 2 ^ 31 ∨
          int32 (v.pos + 1) = -2 ^ 31 ∧ v.pos + 1 = 2 ^ 31 := by
        unfold int32
        rw [Int.bmod_def]
        omega
      have hne : ulong (int32 (v.pos + 1)) ≠ c.hashSlots := by
        unfold ulong
        omega
      have hput : (if h.selects (t (ulong v.pos)) then v.put (t (ulong v.pos)) else v).pos = v.pos := by
        split_ifs <;> rfl
      rw [if_pos hin]
      dsimp only
      rw [hput, if_neg hne]
      by_cases hfull : h.selects (t (ulong v.pos)) = true ∧ ITER_BUF_LIMIT < v.bufOffset + 4 + ITER_KEY_LEN
      · rw [if_pos hfull]
        exact ⟨v, rfl⟩
      · rw [if_neg hfull]
        exact ih (by dsimp only; omega) (by dsimp only; omega) (by dsimp only; omega)
    · rw [if_neg hin]
      exact ⟨v, rfl⟩

/-- No read of such a table has the end status. -/
theorem kvIterReads_noEnd (hslots : 2 ^ 31 ≤ c.hashSlots) {iter : BitVec 8} (hlt : iter.toNat < ITER_HANDLES) :
    ∀ (values : List HostData) {s : IterHandles} {h : KvIterContext}, s iter.toNat = .ctx h →
      ∃ rs s', kvIterReads c t iter values s = .ok (rs, s') ∧ rs.length = values.length ∧
        ∀ r ∈ rs, r.status ≠ ITER_END
  | [], s, h, hopen => ⟨[], s, rfl, rfl, fun r hr => by simp at hr⟩
  | value :: values, s, h, hopen => by
    have hrange : -2 ^ 31 ≤ int32 h.currentPos ∧ int32 h.currentPos < 2 ^ 31 := by
      unfold int32
      rw [Int.bmod_def]
      omega
    obtain ⟨v', hloop⟩ : ∃ v', iterLoop c t h (c.hashSlots + 1) ⟨h.buf, 4, 0, int32 h.currentPos⟩ =
        .ok (v', false) := by
      apply iterLoop_noEnd hslots
      all_goals
        dsimp only
        omega
    obtain ⟨r, h', hread, hr⟩ : ∃ r h', iterRead c t h value = .ok (r, h') ∧ r.status = 0 := by
      rw [iterRead, hloop]
      exact ⟨_, _, rfl, rfl⟩
    have hcall : kvIterRead c t s (readCommand iter value) 0 = .ok (r, update s iter.toNat (.ctx h')) :=
      kvIterRead_open hlt hopen hread
    obtain ⟨rs, s', hrun, hlen, hrs⟩ := kvIterReads_noEnd hslots hlt values (update_self iter.toNat (.ctx h') s)
    refine ⟨r :: rs, s', ?_, congrArg (· + 1) hlen, List.forall_mem_cons.2 ⟨?_, hrs⟩⟩
    · rw [kvIterReads, show doPerformKvIterIo c t s (readCommand iter value) 0 = _ from hcall, ok_bind]
      dsimp only
      rw [hrun]
      rfl
    · rw [hr]
      decide

/-- A table of 2^31 slots. -/
def hugeTable : KvCfg where
  hashSlots := 2 ^ 31
  storageSize := 4096
  hashSlots_pos := by decide
  hashSlots_lt := by decide
  storageSize_lt := page_lt

/-- However often an iterator of an empty table of 2^31 slots is read, the end is not reached. -/
theorem kv_iterator_reads_endless :
    ∃ r₀ s₀, doPerformKvIterIo hugeTable (fun _ => .init) (iterHandlesInit true)
        (iterCommand .iterReq 0 ITER_OPTION_OPEN) 0 = .ok (r₀, s₀) ∧ ∀ values : List HostData,
      ∃ rs s', kvIterReads hugeTable (fun _ => .init) (BitVec.ofNat 8 r₀.result) values s₀ = .ok (rs, s') ∧
        rs.length = values.length ∧ ∀ r ∈ rs, r.status ≠ ITER_END :=
  ⟨_, _, rfl, fun values => kvIterReads_noEnd le_rfl (by decide) values rfl⟩

end WaitGc

/-
  WAITGC verification — the chains of the mapping table.

  `Indexed` says which key each used slot was filled for, and that the slot lies
  on the chain of that key.  New entries keep it (`Indexed.insert`); a deletion
  keeps it if it cuts no entry off from its key (`Indexed.delete`).
-/
import WaitGc.Kv.Index
import WaitGc.Lib.Chain
import Mathlib.Data.List.Perm.Subperm

namespace WaitGc

open Outcome Function Chain

variable {c : KvCfg} {t t' : KvTable} {owner : ℕ → Option KvKey} {key : KvKey} {a d j p z : ℕ} {l : List ℕ}

theorem KvKey.ext_bytes {k k' : KvKey} (h : k.bytes = k'.bytes) : k = k' := by
  cases k
  cases k'
  cases h
  rfl

/-! ## Chains -/

/-- The slot is used. -/
abbrev KvTable.Used (t : KvTable) (j : ℕ) : Prop := (t j).used = true

/-- Where the slot is linked to. -/
abbrev KvTable.next (t : KvTable) (j : ℕ) : ℕ := (t j).nextSlot

/-- The chain through `a`. -/
abbrev KvTable.Slots (t : KvTable) (a : ℕ) (l : List ℕ) : Prop := Ended t.Used t.next a l

/-- Every chain ends, and an unused slot is linked to nothing. -/
structure Chained (c : KvCfg) (t : KvTable) : Prop where
  bound : ∀ j, t.Used j → j < c.hashSlots
  free : ∀ j, ¬ t.Used j → t.next j = NO_SLOT
  chains : ∀ a, ∃ l, t.Slots a l

/-- The table holds what was stored: `owner` says for which key a slot was filled. -/
structure Indexed (c : KvCfg) (t : KvTable) (owner : ℕ → Option KvKey) : Prop where
  bound : ∀ j, t.Used j → j < c.hashSlots
  free : ∀ j, ¬ t.Used j → t.next j = NO_SLOT
  owned : ∀ j, t.Used j ↔ (owner j).isSome
  chains : ∀ a, ∃ l, t.Slots a l
  home : ∀ j key, owner j = some key → ∀ l, t.Slots (getHashSlot c key) l → j ∈ l
  holds : ∀ j key, owner j = some key → (t j).holds key = true
  unique : ∀ i j key, owner i = some key → owner j = some key → i = j

theorem Indexed.chained (h : Indexed c t owner) : Chained c t := ⟨h.bound, h.free, h.chains⟩

theorem getHashSlot_lt (c : KvCfg) (key : KvKey) : getHashSlot c key < c.hashSlots :=
  Nat.mod_lt _ c.hashSlots_pos

theorem Chained.noSlot (h : Chained c t) : ¬ t.Used NO_SLOT := by
  intro hused
  have hlt := h.bound _ hused
  have hslots := c.hashSlots_lt
  unfold NO_SLOT at hlt
  omega

theorem Chained.length_le (h : Chained c t) (hl : t.Slots a l) : l.length ≤ c.hashSlots := by
  have hsub : l ⊆ List.range c.hashSlots := by
    intro j hj
    exact List.mem_range.2 (h.bound j (hl.used_of_mem hj))
  simpa using (List.subperm_of_subset hl.nodup hsub).length_le

theorem searchChain_eq (hno : ¬ t.Used NO_SLOT) {fuel : ℕ} (hl : t.Slots a l) (hf : l.length < fuel) :
    searchChain t key fuel a = .ok (l.find? fun j => (t j).holds key) := by
  induction l generalizing a fuel with
  | nil =>
    obtain ⟨fuel, rfl⟩ : ∃ n, fuel = n + 1 := ⟨fuel - 1, by simp at hf; omega⟩
    rw [searchChain, if_neg (ended_nil.1 hl)]
    rfl
  | cons b l ih =>
    obtain ⟨fuel, rfl⟩ : ∃ n, fuel = n + 1 := ⟨fuel - 1, by simp at hf; omega⟩
    obtain ⟨rfl, ha, hl⟩ := ended_cons.1 hl
    rw [searchChain, if_pos ha, List.find?_cons]
    cases hk : (t a).holds key with
    | true => rfl
    | false =>
      rw [if_neg Bool.false_ne_true]
      by_cases hnext : (t a).nextSlot = NO_SLOT
      · rw [if_pos hnext]
        rw [KvTable.next, hnext] at hl
        rw [hl.eq_nil hno]
        rfl
      · rw [if_neg hnext]
        exact ih hl (by simpa using hf)

/-- The slots of the chain through `a`. -/
def chainSlots (t : KvTable) : ℕ → ℕ → List ℕ
  | 0, _ => []
  | fuel + 1, a => if (t a).used then a :: chainSlots t fuel (t a).nextSlot else []

/-- The slots a search for the key looks at. -/
def keyChain (c : KvCfg) (t : KvTable) (key : KvKey) : List ℕ :=
  chainSlots t (c.hashSlots + 1) (getHashSlot c key)

theorem chainSlots_eq {fuel : ℕ} (hl : t.Slots a l) (hf : l.length < fuel) : chainSlots t fuel a = l := by
  induction l generalizing a fuel with
  | nil =>
    obtain ⟨fuel, rfl⟩ : ∃ n, fuel = n + 1 := ⟨fuel - 1, by simp at hf; omega⟩
    rw [chainSlots, if_neg (ended_nil.1 hl)]
  | cons b l ih =>
    obtain ⟨fuel, rfl⟩ : ∃ n, fuel = n + 1 := ⟨fuel - 1, by simp at hf; omega⟩
    obtain ⟨rfl, ha, hl⟩ := ended_cons.1 hl
    rw [chainSlots, if_pos ha, ih hl (by simpa using hf)]

theorem Chained.keyChain (h : Chained c t) (key : KvKey) :
    t.Slots (getHashSlot c key) (keyChain c t key) := by
  obtain ⟨l, hl⟩ := h.chains (getHashSlot c key)
  rwa [WaitGc.keyChain, chainSlots_eq hl (Nat.lt_succ_of_le (h.length_le hl))]

theorem Indexed.mem_keyChain (h : Indexed c t owner) (hj : owner j = some key) : j ∈ WaitGc.keyChain c t key :=
  h.home j key hj _ (h.chained.keyChain key)

theorem Chained.findMapping (h : Chained c t) (key : KvKey) :
    findMapping c t key = .ok ((WaitGc.keyChain c t key).find? fun j => (t j).holds key) :=
  searchChain_eq h.noSlot (h.keyChain key) (Nat.lt_succ_of_le (h.length_le (h.keyChain key)))

theorem Indexed.find_none (h : Indexed c t owner) (hfind : WaitGc.findMapping c t key = .ok none) (j : ℕ) :
    owner j ≠ some key := by
  intro hj
  have hnone := Except.ok.inj ((h.chained.findMapping key).symm.trans hfind)
  exact absurd (h.holds j key hj) (List.find?_eq_none.1 hnone j (h.mem_keyChain hj))

theorem findTail_eq (hno : ¬ t.Used NO_SLOT) {fuel prevs : ℕ} (hl : t.Slots a (l ++ [p]))
    (hf : l.length + 1 < fuel) : findTail t fuel a prevs = .ok p := by
  induction l generalizing a fuel prevs with
  | nil =>
    obtain ⟨fuel, rfl⟩ : ∃ n, fuel = n + 2 := ⟨fuel - 2, by simp at hf; omega⟩
    obtain ⟨rfl, ha, hl⟩ := ended_cons.1 hl
    rw [findTail, if_pos ha]
    by_cases hnext : (t a).nextSlot = NO_SLOT
    · rw [if_pos hnext]
    · rw [if_neg hnext, findTail, if_neg (ended_nil.1 hl)]
  | cons b l ih =>
    obtain ⟨fuel, rfl⟩ : ∃ n, fuel = n + 1 := ⟨fuel - 1, by omega⟩
    obtain ⟨rfl, ha, hl⟩ := ended_cons.1 hl
    have hnext : (t a).nextSlot ≠ NO_SLOT := by
      intro hnext
      rw [KvTable.next, hnext] at hl
      exact absurd (hl.eq_nil hno) (by simp)
    rw [findTail, if_pos ha, if_neg hnext]
    exact ih hl (by simpa using hf)

/-! ## Free slots -/

theorem findFree_ok {fuel slot : ℕ} (hslot : slot < c.hashSlots) (h : findFree c t fuel slot = .ok z) :
    ¬ t.Used z ∧ z < c.hashSlots := by
  induction fuel generalizing slot with
  | zero => cases h
  | succ fuel ih =>
    rw [findFree] at h
    by_cases hused : (t slot).used = true
    · rw [if_pos hused] at h
      refine ih ?_ h
      split_ifs with hwrap
      · exact c.hashSlots_pos
      · exact Nat.lt_of_not_le hwrap
    · rw [if_neg hused] at h
      cases h
      exact ⟨hused, hslot⟩

/-- The search goes round: `k` turns from `slot` it is at `(slot + k) % hash_slots`. -/
theorem findFree_reaches {k slot : ℕ} (fuel : ℕ) (hslot : slot < c.hashSlots) (hk : k < fuel)
    (hz : ¬ t.Used ((slot + k) % c.hashSlots)) : ∃ z, findFree c t fuel slot = .ok z := by
  induction k generalizing fuel slot with
  | zero =>
    obtain ⟨fuel, rfl⟩ : ∃ n, fuel = n + 1 := ⟨fuel - 1, by omega⟩
    rw [Nat.add_zero, Nat.mod_eq_of_lt hslot] at hz
    exact ⟨slot, by rw [findFree, if_neg hz]⟩
  | succ k ih =>
    obtain ⟨fuel, rfl⟩ : ∃ n, fuel = n + 1 := ⟨fuel - 1, by omega⟩
    by_cases hused : (t slot).used = true
    · rw [findFree, if_pos hused]
      by_cases hwrap : c.hashSlots ≤ slot + 1
      · rw [if_pos hwrap]
        refine ih fuel c.hashSlots_pos (by omega) ?_
        rwa [show slot + (k + 1) = 0 + k + c.hashSlots by omega, Nat.add_mod_right] at hz
      · rw [if_neg hwrap]
        refine ih fuel (by omega) (by omega) ?_
        rwa [show slot + (k + 1) = slot + 1 + k by omega] at hz
    · exact ⟨slot, by rw [findFree, if_neg hused]⟩

theorem findFree_fault {fuel slot : ℕ} {f : KvFault} (h : findFree c t fuel slot = .error f) :
    f = .tableFull := by
  induction fuel generalizing slot with
  | zero => cases h; rfl
  | succ fuel ih =>
    rw [findFree] at h
    split_ifs at h
    · exact ih h
    · exact ih h

/-- The search goes on forever only if no slot is free. -/
theorem findFree_error {slot : ℕ} {f : KvFault} (hslot : slot < c.hashSlots)
    (h : findFree c t (c.hashSlots + 1) slot = .error f) : ∀ j < c.hashSlots, t.Used j := by
  intro j hj
  by_contra hfree
  have hdist : (slot + (j + c.hashSlots - slot) % c.hashSlots) % c.hashSlots = j := by
    rw [Nat.add_mod_mod, show slot + (j + c.hashSlots - slot) = j + c.hashSlots by omega,
      Nat.add_mod_right, Nat.mod_eq_of_lt hj]
  have hlt := Nat.mod_lt (j + c.hashSlots - slot) c.hashSlots_pos
  obtain ⟨z, hz⟩ := findFree_reaches (t := t) (k := (j + c.hashSlots - slot) % c.hashSlots)
    (c.hashSlots + 1) hslot (by omega) (by rwa [hdist])
  rw [hz] at h
  cases h

/-! ## New entries -/

theorem MappingEntry.setKey_holds (e : MappingEntry) (key : KvKey) : (e.setKey key).holds key = true := by
  simp [setKey, holds]

/-- What `new_mapping_entry` does: slot `z` is filled, and linked to at most one entry. -/
structure NewEntry (c : KvCfg) (t : KvTable) (key : KvKey) (valLen valOffset z : ℕ) (t' : KvTable) :
    Prop where
  lt : z < c.hashSlots
  offset : valOffset < c.storageSize
  grows : Grows t.Used t.next t'.Used t'.next z
  entry : t' z = { (t z).setKey key with memOffset := valOffset, length := valLen }
  others : ∀ j, j ≠ z → t' j = { t j with nextSlot := (t' j).nextSlot }
  rest : ∀ j, j ≠ z → ¬ t.Used j → t' j = t j
  home : ∀ l, t'.Slots (getHashSlot c key) l → z ∈ l

theorem used_of_offset {e : MappingEntry} {valOffset : ℕ} (h : valOffset < c.storageSize) :
    { e with memOffset := valOffset }.used = true := by
  have hlt := c.storageSize_lt
  have hne : valOffset ≠ NO_OFFSET := by unfold NO_OFFSET; omega
  simpa [MappingEntry.used] using hne

/-- A slot that is filled grows the chains. -/
theorem Chained.grows (h : Chained c t) (hz : ¬ t.Used z) (hlt : z < c.hashSlots)
    (hfill : t'.Used z) (hend : t'.next z = t.next z) (hused : ∀ b, b ≠ z → (t'.Used b ↔ t.Used b))
    (hkeep : ∀ b, t.Used b → t'.next b = t.next b ∨ t'.next b = z ∧ ¬ t.Used (t.next b)) :
    Grows t.Used t.next t'.Used t'.next z := by
  constructor
  · intro b
    by_cases hb : b = z
    · subst hb; exact iff_of_true hfill (.inr rfl)
    · rw [hused b hb, or_iff_left hb]
  · exact hz
  · have hne : NO_SLOT ≠ z := by
      have hslots := c.hashSlots_lt
      unfold NO_SLOT
      omega
    rw [hend, h.free z hz, hused _ hne]
    exact h.noSlot
  · exact hkeep

theorem Chained.fill {e : MappingEntry} (h : Chained c t) (hz : ¬ t.Used z) (hlt : z < c.hashSlots)
    (he : e.used = true) (hend : e.nextSlot = (t z).nextSlot) :
    Grows t.Used t.next (KvTable.Used (update t z e)) (KvTable.next (update t z e)) z := by
  refine h.grows hz hlt ?_ ?_ ?_ ?_
  · rwa [KvTable.Used, update_self]
  · rwa [KvTable.next, update_self]
  · intro b hb
    rw [KvTable.Used, update_of_ne hb]
  · intro b hb
    have hne : b ≠ z := fun heq => hz (heq ▸ hb)
    rw [KvTable.next, update_of_ne hne]
    exact .inl rfl

/-- A slot is filled, and the last slot of a chain is linked to it. -/
theorem Chained.link {e : MappingEntry} (h : Chained c t) (hz : ¬ t.Used z) (hlt : z < c.hashSlots)
    (he : e.used = true) (hend : e.nextSlot = (t z).nextSlot) (hp : t.Used p) (hlast : ¬ t.Used (t.next p)) :
    Grows t.Used t.next (KvTable.Used (chainMapping (update t z e) p z))
      (KvTable.next (chainMapping (update t z e) p z)) z := by
  have hne : p ≠ z := fun heq => hz (heq ▸ hp)
  unfold chainMapping
  refine h.grows hz hlt ?_ ?_ ?_ ?_
  · rwa [KvTable.Used, update_of_ne hne.symm, update_self]
  · rwa [KvTable.next, update_of_ne hne.symm, update_self]
  · intro b hb
    by_cases hbp : b = p
    · subst hbp
      rw [KvTable.Used, update_self, update_of_ne hne]
      exact Iff.rfl
    · rw [KvTable.Used, update_of_ne hbp, update_of_ne hb]
  · intro b hb
    have hbz : b ≠ z := fun heq => hz (heq ▸ hb)
    by_cases hbp : b = p
    · subst hbp
      rw [KvTable.next, update_self]
      exact .inr ⟨rfl, hlast⟩
    · rw [KvTable.next, update_of_ne hbp, update_of_ne hbz]
      exact .inl rfl

/-- **A new entry**: the slot and the links are those of a growing table. -/
theorem Chained.newMapping {valLen valOffset : ℕ} (h : Chained c t)
    (hnew : newMapping c t key valLen valOffset = .ok t') :
    ∃ z, NewEntry c t key valLen valOffset z t' := by
  unfold WaitGc.newMapping at hnew
  obtain ⟨_, hcheck, hnew⟩ := bind_eq_ok hnew
  have hoff : valOffset < c.storageSize := by
    by_contra hle
    rw [require_neg hle] at hcheck
    cases hcheck
  obtain ⟨⟨z, prev⟩, hchoose, hnew⟩ := bind_eq_ok hnew
  dsimp only at hnew
  have hfill := used_of_offset (e := { (t z).setKey key with length := valLen }) hoff
  unfold chooseSlot at hchoose
  by_cases hhome : t.Used (getHashSlot c key)
  · rw [if_pos hhome] at hchoose
    unfold findNextSlot at hchoose
    obtain ⟨tail, htail, hchoose⟩ := bind_eq_ok hchoose
    obtain ⟨free, hfree, hchoose⟩ := bind_eq_ok hchoose
    cases hchoose
    obtain ⟨l, hl⟩ := h.chains (getHashSlot c key)
    -- the chain is not empty, and its last slot is the tail
    obtain ⟨l₀, p, rfl⟩ : ∃ l₀ p, l = l₀ ++ [p] :=
      ⟨_, _, (List.dropLast_append_getLast fun hnil => ended_nil.1 (hnil ▸ hl) hhome).symm⟩
    have hlen := h.length_le hl
    rw [List.length_append, List.length_singleton] at hlen
    obtain rfl : p = prev :=
      Except.ok.inj ((findTail_eq h.noSlot hl (Nat.lt_succ_of_le hlen)).symm.trans htail)
    have hmem : p ∈ l₀ ++ [p] := List.mem_append_right _ (List.mem_singleton_self p)
    have hp := hl.used_of_mem hmem
    obtain ⟨hz, hlt⟩ := findFree_ok (h.bound _ hp) hfree
    have hne : p ≠ z := fun heq => hz (heq ▸ hp)
    have hprev : p ≠ NO_SLOT := fun heq => h.noSlot (heq ▸ hp)
    rw [if_pos hprev] at hnew
    cases hnew
    have hgrows := h.link hz hlt hfill rfl hp hl.next_last
    refine ⟨z, hlt, hoff, hgrows, ?_, ?_, ?_, ?_⟩
    · rw [chainMapping, update_of_ne hne.symm, update_self]
    · intro j hj
      unfold chainMapping
      by_cases hjp : j = p
      · subst hjp
        rw [update_self, update_of_ne hj]
      · rw [update_of_ne hjp, update_of_ne hj]
    · intro j hj hfree
      have hjp : j ≠ p := fun heq => hfree (heq ▸ hp)
      rw [chainMapping, update_of_ne hjp, update_of_ne hj]
    · intro l hl'
      have hgrown := hl.grow_of_mem hgrows hmem (by rw [KvTable.next, chainMapping, update_self])
      rw [hl'.unique hgrown]
      exact List.mem_append_right _ (List.mem_singleton_self z)
  · rw [if_neg hhome] at hchoose
    cases hchoose
    rw [if_neg (not_not_intro rfl)] at hnew
    cases hnew
    have hgrows := h.fill hhome (getHashSlot_lt c key) hfill rfl
    refine ⟨_, getHashSlot_lt c key, hoff, hgrows, update_self _ _ _, ?_, ?_, ?_⟩
    · intro j hj
      rw [update_of_ne hj]
    · intro j hj _
      rw [update_of_ne hj]
    · intro l hl
      rw [hl.unique hgrows.single]
      exact List.mem_singleton_self _

/-- The ways a command can stop on an indexed table. -/
def Stops (c : KvCfg) (t : KvTable) (f : KvFault) : Prop :=
  f ≠ .endlessChain ∧ (f = .tableFull → ∀ j < c.hashSlots, t.Used j)

/-- **A new entry finds a slot**, if there is a free one. -/
theorem Indexed.newMapping_stops (h : Indexed c t owner) (valLen valOffset : ℕ) :
    Sat (Stops c t) (fun _ => True) (WaitGc.newMapping c t key valLen valOffset) := by
  unfold WaitGc.newMapping
  by_cases hoff : valOffset < c.storageSize
  swap
  · rw [require_neg hoff]
    exact ⟨by simp, by simp⟩
  rw [require_pos hoff, ok_bind]
  refine Sat.bind (Q := fun _ => True) ?_ fun _ _ => trivial
  unfold chooseSlot
  by_cases hhome : t.Used (getHashSlot c key)
  swap
  · rw [if_neg hhome]
    trivial
  rw [if_pos hhome]
  obtain ⟨l, hl⟩ := h.chains (getHashSlot c key)
  obtain ⟨l₀, p, rfl⟩ : ∃ l₀ p, l = l₀ ++ [p] :=
    ⟨_, _, (List.dropLast_append_getLast fun hnil => ended_nil.1 (hnil ▸ hl) hhome).symm⟩
  have hlen := h.chained.length_le hl
  rw [List.length_append, List.length_singleton] at hlen
  have hp := hl.used_of_mem (List.mem_append_right _ (List.mem_singleton_self p))
  unfold findNextSlot
  rw [findTail_eq h.chained.noSlot hl (Nat.lt_succ_of_le hlen), ok_bind]
  cases hfree : findFree c t (c.hashSlots + 1) p with
  | ok z => trivial
  | error f =>
    have hfull := findFree_error (h.bound p hp) hfree
    have hf := findFree_fault hfree
    exact ⟨by rw [hf]; simp, fun _ => hfull⟩

theorem holds_congr {e e' : MappingEntry} (h : e'.key = e.key) : e'.holds key = e.holds key := by
  rw [MappingEntry.holds, MappingEntry.holds, h]

/-- **A new entry keeps the table indexed**, if its key had none. -/
theorem Indexed.insert {valLen valOffset : ℕ} (h : Indexed c t owner) (hkey : ∀ j, owner j ≠ some key)
    (hn : NewEntry c t key valLen valOffset z t') : Indexed c t' (update owner z (some key)) := by
  have hother (j : ℕ) (hj : j ≠ z) : update owner z (some key) j = owner j := update_of_ne hj _ _
  constructor
  · intro j hj
    rcases (hn.grows.used_iff j).1 hj with hj | rfl
    · exact h.bound j hj
    · exact hn.lt
  · intro j hj
    have hfree := mt (hn.grows.used_iff j).2 hj
    rw [not_or] at hfree
    rw [KvTable.next, hn.rest j hfree.2 hfree.1]
    exact h.free j hfree.1
  · intro j
    by_cases hj : j = z
    · subst hj
      rw [update_self]
      exact iff_of_true ((hn.grows.used_iff j).2 (.inr rfl)) rfl
    · rw [hother j hj, ← h.owned j, hn.grows.used_iff j, or_iff_left hj]
  · intro a
    obtain ⟨l, hl⟩ := h.chains a
    exact (hl.grow hn.grows).elim (fun hl => ⟨_, hl⟩) fun hl => ⟨_, hl⟩
  · intro j k hj l hl
    by_cases hjz : j = z
    · subst hjz
      rw [update_self] at hj
      cases hj
      exact hn.home l hl
    · rw [hother j hjz] at hj
      obtain ⟨l₀, hl₀⟩ := h.chains (getHashSlot c k)
      have hmem := h.home j k hj l₀ hl₀
      rcases hl₀.grow hn.grows with hl' | hl'
      · rwa [hl.unique hl']
      · rw [hl.unique hl']
        exact List.mem_append_left _ hmem
  · intro j k hj
    by_cases hjz : j = z
    · subst hjz
      rw [update_self] at hj
      cases hj
      rw [hn.entry]
      exact MappingEntry.setKey_holds (t j) key
    · rw [hother j hjz] at hj
      rw [hn.others j hjz]
      exact h.holds j k hj
  · intro i j k hi hj
    by_cases hiz : i = z
    · by_cases hjz : j = z
      · rw [hiz, hjz]
      · rw [hiz, update_self] at hi
        rw [hother j hjz, ← hi] at hj
        exact absurd hj (hkey j)
    · by_cases hjz : j = z
      · rw [hjz, update_self] at hj
        rw [hother i hiz, ← hj] at hi
        exact absurd hi (hkey i)
      · rw [hother i hiz] at hi
        rw [hother j hjz] at hj
        exact h.unique i j k hi hj

/-! ## Updates and deletions -/

theorem Indexed.congr (h : Indexed c t owner) (hused : ∀ j, t'.Used j ↔ t.Used j)
    (hnext : ∀ j, t'.next j = t.next j) (hkey : ∀ j, (t' j).key = (t j).key) : Indexed c t' owner := by
  have hU : t'.Used = t.Used := funext fun j => propext (hused j)
  have hN : t'.next = t.next := funext hnext
  obtain ⟨h₁, h₂, h₃, h₄, h₅, h₆, h₇⟩ := h
  refine ⟨?_, ?_, ?_, ?_, ?_, ?_, h₇⟩
  · rwa [hU]
  · rwa [hU, hN]
  · rwa [hU]
  · show ∀ a, ∃ l, Ended t'.Used t'.next a l
    rwa [hU, hN]
  · show ∀ j key, owner j = some key → ∀ l, Ended t'.Used t'.next (getHashSlot c key) l → j ∈ l
    rwa [hU, hN]
  · intro j k hj
    rw [holds_congr (hkey j)]
    exact h₆ j k hj

theorem setLength_eq (t : KvTable) (j length i : ℕ) :
    ∃ n, update t j { t j with length } i = { t i with length := n } := by
  by_cases hi : i = j
  · subst hi
    exact ⟨length, update_self _ _ _⟩
  · exact ⟨(t i).length, update_of_ne hi _ _⟩

theorem setLength_used (t : KvTable) (j length i : ℕ) :
    KvTable.Used (update t j { t j with length }) i ↔ t.Used i := by
  obtain ⟨n, hn⟩ := setLength_eq t j length i
  rw [KvTable.Used, hn]
  exact Iff.rfl

theorem Indexed.setLength (h : Indexed c t owner) (j length : ℕ) :
    Indexed c (update t j { t j with length }) owner := by
  refine h.congr (setLength_used t j length) ?_ ?_
  · intro i
    obtain ⟨n, hn⟩ := setLength_eq t j length i
    rw [KvTable.next, hn]
  · intro i
    obtain ⟨n, hn⟩ := setLength_eq t j length i
    rw [hn]

theorem shrinks_clear (t : KvTable) (d : ℕ) :
    Shrinks t.Used t.next (KvTable.Used (update t d .none)) (KvTable.next (update t d .none)) d := by
  have hnone : ¬ (MappingEntry.none.used = true) := by simp [MappingEntry.none, MappingEntry.used]
  constructor
  · intro b
    by_cases hb : b = d
    · subst hb
      rw [KvTable.Used, update_self]
      exact iff_of_false hnone fun h => h.2 rfl
    · rw [KvTable.Used, update_of_ne hb, and_iff_left hb]
  · intro b hb
    have hne : b ≠ d := by
      rintro rfl
      rw [KvTable.Used, update_self] at hb
      exact hnone hb
    rw [KvTable.next, update_of_ne hne]

/-- The entry in slot `d` is not on the way to the entry of another key. -/
def NotOnTheWay (c : KvCfg) (t : KvTable) (owner : ℕ → Option KvKey) (d : ℕ) : Prop :=
  ∀ j < c.hashSlots, ∀ key ∈ owner j, j ≠ d → j ∈ (keyChain c t key).takeWhile (· ≠ d)

instance (c : KvCfg) (t : KvTable) (owner : ℕ → Option KvKey) (d : ℕ) : Decidable (NotOnTheWay c t owner d) :=
  inferInstanceAs (Decidable (∀ j < c.hashSlots, ∀ key ∈ owner j,
    j ≠ d → j ∈ (keyChain c t key).takeWhile (· ≠ d)))

/-- **A deletion keeps the table indexed**, if no other entry is reached through the slot. -/
theorem Indexed.delete (h : Indexed c t owner) (hway : NotOnTheWay c t owner d) :
    Indexed c (update t d .none) (update owner d none) := by
  have hs := shrinks_clear t d
  constructor
  · intro j hj
    exact h.bound j ((hs.used_iff j).1 hj).1
  · intro j hj
    by_cases hjd : j = d
    · subst hjd
      rw [KvTable.next, update_self]
      rfl
    · rw [KvTable.next, update_of_ne hjd]
      exact h.free j fun hused => hj ((hs.used_iff j).2 ⟨hused, hjd⟩)
  · intro j
    rw [hs.used_iff j]
    by_cases hjd : j = d
    · subst hjd
      rw [update_self]
      exact iff_of_false (fun h => h.2 rfl) Bool.false_ne_true
    · rw [update_of_ne hjd, and_iff_left hjd]
      exact h.owned j
  · intro a
    obtain ⟨l, hl⟩ := h.chains a
    exact ⟨_, hl.shrink hs⟩
  · intro j key hj l hl
    have hjd : j ≠ d := by
      rintro rfl
      rw [update_self] at hj
      cases hj
    rw [update_of_ne hjd] at hj
    have hlt := h.bound j ((h.owned j).2 (Option.isSome_of_eq_some hj))
    rw [hl.unique ((h.chained.keyChain key).shrink hs)]
    exact hway j hlt key hj hjd
  · intro j key hj
    have hjd : j ≠ d := by
      rintro rfl
      rw [update_self] at hj
      cases hj
    rw [update_of_ne hjd] at hj ⊢
    exact h.holds j key hj
  · intro i j key hi hj
    have hne (i : ℕ) (hi : update owner d none i = some key) : i ≠ d := by
      rintro rfl
      rw [update_self] at hi
      cases hi
    have hid := hne i hi
    have hjd := hne j hj
    rw [update_of_ne hid] at hi
    rw [update_of_ne hjd] at hj
    exact h.unique i j key hi hj

theorem indexed_init (c : KvCfg) : Indexed c (fun _ => .init) fun _ => none := by
  have hnot (j : ℕ) : ¬ KvTable.Used (fun _ => MappingEntry.init) j := by
    simp [KvTable.Used, MappingEntry.init, MappingEntry.used]
  constructor
  · exact fun j hj => absurd hj (hnot j)
  · exact fun _ _ => rfl
  · exact fun j => iff_of_false (hnot j) Bool.false_ne_true
  · exact fun a => ⟨[], ended_nil.2 (hnot a)⟩
  · exact fun _ _ h => nomatch h
  · exact fun _ _ h => nomatch h
  · exact fun _ _ _ h => nomatch h

end WaitGc

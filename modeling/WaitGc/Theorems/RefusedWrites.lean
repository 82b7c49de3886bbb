/-
  WAITGC verification — refused writes and the data of a zoned namespace.

  `refused_writes`: a write that completes with an error leaves the storage
  unchanged exactly when its data are what is stored already, or no worker gets
  it.  In a run whose refused writes are so, and whose workers let no command
  overtake a write of the same bytes, a read returns the data of the last
  successful write that covered them since their zone was reset.

  The last write is the last one that was handled: the status and the write pointer
  are decided then.  It is kept beside the namespace, and with every waiting read
  what it is due to find, in a log that nothing reads.  The copies that wait are
  the deferred accesses of `Lib/Deferred`.
-/
import WaitGc.Lib.Deferred
import WaitGc.Proof.ZoneData
import WaitGc.Zns.Device

namespace WaitGc

open Outcome Function Deferred

variable {c : ZnsCfg} {s s' : ZnsFtl}

/-! ## One write -/

/-- A write, or a zone append. -/
def writeCommand (append : Bool) (rw : RwCommand) : ZnsCommand :=
  if append then .append rw else .write rw

/-- The data of a write of `size` bytes from the block `slba` on are stored there. -/
def HostData.Stored (host : HostData) (slba size : ℕ) (storage : ℕ → ℕ) : Prop :=
  ∀ k, k < size → host.data size k = storage (u64 (cmdIoOffset slba + k))

theorem write_eq_self_iff {host : HostData} {slba size : ℕ} (hsize : size ≤ 2 ^ 32) (storage : ℕ → ℕ) :
    host.write slba size storage = storage ↔ host.Stored slba size storage := by
  have ho : cmdIoOffset slba < 2 ^ 64 := Nat.mod_lt _ (by decide)
  constructor
  · intro h k hk
    have hj := congrFun h (u64 (cmdIoOffset slba + k))
    have hback : sub64 (u64 (cmdIoOffset slba + k)) (cmdIoOffset slba) = k := by
      unfold sub64 u64
      omega
    rwa [host.write_apply hsize, if_pos ((touches_iff hsize).2 ⟨k, hk, rfl⟩), hback] at hj
  · intro h
    funext j
    rw [host.write_apply hsize]
    split_ifs with hj
    · rw [h _ hj.2]
      congr 1
      obtain ⟨hlt, -⟩ := hj
      unfold sub64 u64
      omega
    · rfl

/-- What becomes of a write that a worker may get. -/
theorem znsServe_write (w : IoWorker) {append : Bool} {rw : RwCommand} {sqid : ℕ} {start : BitVec 64}
    (host : HostData) {o : ZnsOutcome}
    (ho : znsProcNvmeIoCmd c s ⟨writeCommand append rw, sqid, start⟩ = .ok o) :
    ∃ s', znsServe c s w ⟨writeCommand append rw, sqid, start⟩ host = .ok s' ∧
      s'.storage = if o.ret = none ∨ w.allocateWorkQueueEntry = none then s.storage
        else host.write (entrySlba c s append rw) rw.bytes s.storage := by
  have hreport : WriteReport s (entrySlba c s append rw) (WriteRefused c s append rw) o := by
    cases append with
    | true => exact znsWrite_report ho
    | false => exact znsWrite_report ho
  have hio (slba : ℕ) (status : ZnsStatus) (storage : ℕ → ℕ) :
      (⟨writeCommand append rw, slba, status, host⟩ : ZnsEntry).performIo storage =
        host.write slba rw.bytes storage := by cases append <;> rfl
  unfold znsServe znsEnqueue
  rw [ho]
  obtain ⟨ret, slba, ftl⟩ := o
  have hstore := hreport.storage
  have hslba := hreport.slba
  dsimp only at hstore hslba
  cases ret with
  | none => exact ⟨ftl, rfl, by rw [if_pos (.inl rfl), hstore]⟩
  | some ret =>
    cases hw : w.allocateWorkQueueEntry with
    | none => exact ⟨ftl, rfl, by rw [if_pos (.inr rfl), hstore]⟩
    | some entry =>
      refine ⟨_, rfl, ?_⟩
      rw [if_neg (by simp), ← hslba, ← hstore]
      exact hio _ _ _

/-! ## The copies that wait -/

/-- The bytes that `__do_perform_io` copies for an entry. -/
def ZnsEntry.bytes (e : ZnsEntry) : ℕ :=
  match e.cmd with
  | .write rw | .append rw | .read rw => rw.bytes
  | .flush | .mgmtSend _ | .other _ => 0

/-- The entry of a successful write or append. -/
def ZnsEntry.Writes (e : ZnsEntry) : Prop :=
  match e.cmd with
  | .write _ | .append _ => e.status = .success
  | .read _ | .flush | .mgmtSend _ | .other _ => False

/-- The entry of a read. -/
def ZnsEntry.Reads (e : ZnsEntry) : Prop :=
  match e.cmd with
  | .read _ => True
  | .write _ | .append _ | .flush | .mgmtSend _ | .other _ => False

/-- The copy of the entry touches the byte `a`. -/
def ZnsEntry.Touches (e : ZnsEntry) (a : ℕ) : Prop := WaitGc.Touches e.slba e.bytes a

/-- The copies of the entries touch a common byte. -/
def ZnsEntry.Shares (e e' : ZnsEntry) : Prop :=
  ∃ k, k < e.bytes ∧ e'.Touches (u64 (cmdIoOffset e.slba + k))

/-- The entry must not be performed before `e'`: they touch a common byte, and one of them is
    a successful write of it. -/
def ZnsEntry.Follows (e e' : ZnsEntry) : Prop :=
  (e.Writes ∧ (e'.Writes ∨ e'.Reads) ∨ e.Reads ∧ e'.Writes) ∧ e.Shares e'

/-- The data of the entry, if it is a refused write, are stored. -/
def ZnsEntry.Harmless (e : ZnsEntry) (storage : ℕ → ℕ) : Prop :=
  match e.cmd with
  | .write rw | .append rw => e.status ≠ .success → e.host.Stored e.slba rw.bytes storage
  | .read _ | .flush | .mgmtSend _ | .other _ => True

/-- The bytes that the entry of a successful write sets. -/
def ZnsEntry.sets (e : ZnsEntry) (a : ℕ) : Option ℕ :=
  match e.cmd with
  | .write rw | .append rw =>
    if e.status = .success ∧ WaitGc.Touches e.slba rw.bytes a then
      some (e.host.data rw.bytes (sub64 a (cmdIoOffset e.slba)))
    else none
  | .read _ | .flush | .mgmtSend _ | .other _ => none

section
variable (e : ZnsEntry) (a : ℕ)

instance : Decidable e.Writes := match h : e.cmd with
  | .write _ | .append _ => decidable_of_iff (e.status = .success) (by rw [ZnsEntry.Writes, h])
  | .read _ | .flush | .mgmtSend _ | .other _ => .isFalse (by rw [ZnsEntry.Writes, h]; exact id)

instance : Decidable e.Reads := match h : e.cmd with
  | .read _ => .isTrue (by rw [ZnsEntry.Reads, h]; trivial)
  | .write _ | .append _ | .flush | .mgmtSend _ | .other _ => .isFalse (by rw [ZnsEntry.Reads, h]; exact id)

instance : Decidable (e.Touches a) := inferInstanceAs (Decidable (WaitGc.Touches _ _ a))

instance (e' : ZnsEntry) : Decidable (e.Shares e') := inferInstanceAs (Decidable (∃ k, k < e.bytes ∧ _))

instance (e' : ZnsEntry) : Decidable (e.Follows e') := inferInstanceAs (Decidable (_ ∧ _))

instance (host : HostData) (slba size : ℕ) (storage : ℕ → ℕ) :
    Decidable (host.Stored slba size storage) := inferInstanceAs (Decidable (∀ k, k < size → _))

instance (storage : ℕ → ℕ) : Decidable (e.Harmless storage) :=
  match e with
  | ⟨.write rw, slba, status, host⟩ | ⟨.append rw, slba, status, host⟩ =>
    inferInstanceAs (Decidable (status ≠ .success → host.Stored slba rw.bytes storage))
  | ⟨.read _, _, _, _⟩ | ⟨.flush, _, _, _⟩ | ⟨.mgmtSend _, _, _, _⟩ | ⟨.other _, _, _, _⟩ => .isTrue trivial

end

/-- Only a successful write sets bytes, those that its copy touches. -/
theorem ZnsEntry.sets_eq_none {e : ZnsEntry} {a : ℕ} (h : ¬ (e.Writes ∧ e.Touches a)) : e.sets a = none := by
  obtain ⟨cmd, slba, status, host⟩ := e
  cases cmd with
  | write rw => exact if_neg h
  | append rw => exact if_neg h
  | _ => rfl

/-- **A harmless copy** sets the bytes of a successful write, and no others. -/
theorem ZnsEntry.performIo_eq {e : ZnsEntry} {storage : ℕ → ℕ} (hharm : e.Harmless storage) :
    e.performIo storage = overlay e.sets storage := by
  have hwrite (rw : RwCommand) (hharm : e.status ≠ .success → e.host.Stored e.slba rw.bytes storage) :
      e.host.write e.slba rw.bytes storage = overlay (fun a =>
        if e.status = .success ∧ WaitGc.Touches e.slba rw.bytes a then
          some (e.host.data rw.bytes (sub64 a (cmdIoOffset e.slba)))
        else none) storage := by
    funext a
    unfold overlay
    dsimp only
    by_cases hst : e.status = .success
    · rw [e.host.write_apply rw.bytes_le]
      by_cases htouch : WaitGc.Touches e.slba rw.bytes a
      · rw [if_pos htouch, if_pos ⟨hst, htouch⟩, Option.getD_some]
      · rw [if_neg htouch, if_neg fun hand => htouch hand.2, Option.getD_none]
    · rw [if_neg fun hand => hst hand.1, (write_eq_self_iff rw.bytes_le storage).2 (hharm hst), Option.getD_none]
  obtain ⟨cmd, slba, status, host⟩ := e
  cases cmd with
  | write rw => exact hwrite rw hharm
  | append rw => exact hwrite rw hharm
  | _ => rfl

theorem ZnsEntry.bytes_le (e : ZnsEntry) : e.bytes ≤ 2 ^ 32 := by
  obtain ⟨cmd, slba, status, host⟩ := e
  cases cmd with
  | write rw => exact rw.bytes_le
  | append rw => exact rw.bytes_le
  | read rw => exact rw.bytes_le
  | _ => exact Nat.zero_le _

theorem ZnsEntry.shares_of_touches {e e' : ZnsEntry} {a : ℕ} (h : e.Touches a) (h' : e'.Touches a) :
    e.Shares e' := by
  obtain ⟨k, hk, rfl⟩ := (touches_iff e.bytes_le).1 h
  exact ⟨k, hk, h'⟩

/-! ## Runs -/

/-- A namespace, the entries that wait and what each is due to find, and the data of the last
    successful write of every byte since its zone was reset. -/
structure StoreRun where
  ftl : ZnsFtl
  waiting : List (ZnsEntry × (ℕ → Option ℕ))
  last : ℕ → Option ℕ

/-- The server without the log. -/
def StoreRun.server (r : StoreRun) : ZnsServer := ⟨r.ftl, r.waiting.map Prod.fst⟩

/-- The command resets the zone of the byte `a`. -/
def ZnsRequest.Resets (c : ZnsCfg) (s : ZnsFtl) (req : ZnsRequest) (a : ℕ) : Prop :=
  match req.cmd with
  | .mgmtSend cmd => cmd.Clears c s a
  | .write _ | .append _ | .read _ | .flush | .other _ => False

instance (req : ZnsRequest) : DecidablePred (req.Resets c s) := fun a => match h : req.cmd with
  | .mgmtSend cmd => decidable_of_iff (cmd.Clears c s a) (by rw [ZnsRequest.Resets, h])
  | .write _ | .append _ | .read _ | .flush | .other _ => .isFalse (by rw [ZnsRequest.Resets, h]; exact id)

/-- What an entry is due to find: what was written last to the bytes that it reads. -/
def ZnsEntry.dueAt (e : ZnsEntry) (last : ℕ → Option ℕ) (a : ℕ) : Option ℕ :=
  if e.Reads ∧ e.Touches a then last a else none

/-- A command was handled: `a` is its entry, if it has one, and the namespace. -/
def StoreRun.command (c : ZnsCfg) (r : StoreRun) (req : ZnsRequest) (a : Option ZnsEntry × ZnsFtl) :
    StoreRun where
  ftl := a.2
  waiting := (r.waiting.map fun p => (p.1, outside (req.Resets c r.ftl) p.2)) ++
    a.1.toList.map fun e => (e, e.dueAt (outside (req.Resets c r.ftl) r.last))
  last b := (a.1.bind fun e => e.sets b).or (outside (req.Resets c r.ftl) r.last b)

/-- The server, with the log. -/
def znsStored (c : ZnsCfg) : Machine StoreRun ServeEvent ZnsFault where
  step r
    | .command req w host => (znsEnqueue c r.ftl w req host).map (r.command c req)
    | .perform i => .ok (match r.waiting[i]? with
      | none => r
      | some p => { r with ftl := p.1.perform r.ftl, waiting := r.waiting.eraseIdx i })
    | .fire i => .ok { r with ftl := r.ftl.fire i }

theorem znsStored_step (r : StoreRun) (e : ServeEvent) :
    ((znsStored c).step r e).map StoreRun.server = (znsServer c).step r.server e := by
  cases e with
  | command req w host =>
    simp only [znsStored, znsServer, StoreRun.server]
    cases znsEnqueue c r.ftl w req host with
    | error f => rfl
    | ok a => simp [Except.map, StoreRun.command, StoreRun.server, Function.comp_def]
  | perform i =>
    simp only [znsStored, znsServer, StoreRun.server, List.getElem?_map]
    cases r.waiting[i]? with
    | none => rfl
    | some p => simp [Except.map, StoreRun.server, List.eraseIdx_map]
  | fire i => rfl

theorem znsStored_run (r : StoreRun) (es : List ServeEvent) :
    ((znsStored c).run r es).map StoreRun.server = (znsServer c).run r.server es := by
  induction es generalizing r with
  | nil => rfl
  | cons e es ih =>
    rw [Machine.run_cons, Machine.run_cons, ← znsStored_step]
    cases (znsStored c).step r e with
    | error f => rfl
    | ok r₁ => exact ih r₁

/-- A refused write is performed only where its data are stored, and no entry before one that
    it must follow. -/
def ServeEvent.Careful (r : StoreRun) : ServeEvent → Prop
  | .perform i => ∀ p ∈ r.waiting[i]?, p.1.Harmless r.ftl.storage ∧
      ∀ p' ∈ r.waiting.take i, ¬ p.1.Follows p'.1
  | .command _ _ _ | .fire _ => True

instance (r : StoreRun) (e : ServeEvent) : Decidable (e.Careful r) :=
  match e with
  | .perform i => inferInstanceAs (Decidable (∀ p ∈ r.waiting[i]?, _))
  | .command _ _ _ | .fire _ => .isTrue trivial

/-! ## The invariant -/

/-- The entries that wait, as deferred accesses. -/
def StoreRun.items (r : StoreRun) : List (Item ℕ ℕ) := r.waiting.map fun p => ⟨p.1.sets, p.2⟩

/-- What is promised of the storage, and that an entry is due to find bytes that it reads. -/
structure StoreRun.Faithful (r : StoreRun) : Prop where
  promised : Promised r.ftl.storage r.items r.last
  reads : ∀ p ∈ r.waiting, ∀ a v, p.2 a = some v → p.1.Reads ∧ p.1.Touches a

theorem znsEnqueue_ftl {w : IoWorker} {req : ZnsRequest} {host : HostData} {a : Option ZnsEntry × ZnsFtl}
    (h : znsEnqueue c s w req host = .ok a) : ∃ o, znsProcNvmeIoCmd c s req = .ok o ∧ a.2 = o.ftl := by
  obtain ⟨o, ho, h⟩ := bind_eq_ok h
  refine ⟨o, ho, ?_⟩
  cases hret : o.ret with
  | none => rw [hret] at h; cases h; rfl
  | some ret =>
    rw [hret] at h
    cases hw : w.allocateWorkQueueEntry with
    | none => rw [hw] at h; cases h; rfl
    | some entry => rw [hw] at h; cases h; rfl

/-- The bytes of an entry that may come first. -/
theorem StoreRun.Faithful.apart {r : StoreRun} {i a : ℕ} {p : ZnsEntry × (ℕ → Option ℕ)} (h : r.Faithful)
    (hord : ∀ p' ∈ r.waiting.take i, ¬ p.1.Follows p'.1) :
    ∀ y ∈ r.items.take i, p.1.sets a = none ∨ y.sets a = none ∧ y.due a = none := by
  intro y hy
  rw [items, ← List.map_take, List.mem_map] at hy
  obtain ⟨p', hp', rfl⟩ := hy
  by_cases hw : p.1.Writes ∧ p.1.Touches a
  · refine .inr ⟨ZnsEntry.sets_eq_none ?_, ?_⟩
    · rintro ⟨hw', htouch'⟩
      exact hord p' hp' ⟨.inl ⟨hw.1, .inl hw'⟩, ZnsEntry.shares_of_touches hw.2 htouch'⟩
    · rw [Option.eq_none_iff_forall_ne_some]
      intro v hv
      obtain ⟨hr', htouch'⟩ := h.reads p' (List.mem_of_mem_take hp') a v hv
      exact hord p' hp' ⟨.inl ⟨hw.1, .inr hr'⟩, ZnsEntry.shares_of_touches hw.2 htouch'⟩
  · exact .inl (ZnsEntry.sets_eq_none hw)

/-- **A command that is handled.** -/
theorem StoreRun.Faithful.command {r : StoreRun} {req : ZnsRequest} {w : IoWorker} {host : HostData}
    {q : Option ZnsEntry × ZnsFtl} (h : r.Faithful) (hq : znsEnqueue c r.ftl w req host = .ok q) :
    (r.command c req q).Faithful := by
  obtain ⟨o, ho, hftl⟩ := znsEnqueue_ftl hq
  have hkeep : ∀ a, ¬ req.Resets c r.ftl a → q.2.storage a = r.ftl.storage a := by
    intro a ha
    rw [hftl]
    refine znsProcNvmeIoCmd_stored ho fun cmd hcmd hclear => ha ?_
    rw [ZnsRequest.Resets, hcmd]
    exact hclear
  have hforget := h.promised.forget (S := req.Resets c r.ftl) hkeep
  have hitems : (r.items.map (Item.forget (req.Resets c r.ftl))) =
      (r.waiting.map fun p => (p.1, outside (req.Resets c r.ftl) p.2)).map
        fun p => (⟨p.1.sets, p.2⟩ : Item ℕ ℕ) := by
    rw [items, List.map_map, List.map_map]
    rfl
  have hreads : ∀ p ∈ r.waiting.map fun p => (p.1, outside (req.Resets c r.ftl) p.2),
      ∀ a v, p.2 a = some v → p.1.Reads ∧ p.1.Touches a := by
    intro p hp a v hv
    obtain ⟨p', hp', rfl⟩ := List.mem_map.1 hp
    simp only [outside] at hv
    split_ifs at hv
    exact h.reads p' hp' a v hv
  rw [hitems] at hforget
  obtain ⟨entry, ftl⟩ := q
  cases entry with
  | none =>
    refine ⟨?_, ?_⟩
    · simpa [StoreRun.command, items] using hforget
    · simpa [StoreRun.command] using hreads
  | some e =>
    have hdue (a v : ℕ) (hv : e.dueAt (outside (req.Resets c r.ftl) r.last) a = some v) :
        (e.Reads ∧ e.Touches a) ∧ outside (req.Resets c r.ftl) r.last a = some v := by
      unfold ZnsEntry.dueAt at hv
      split_ifs at hv with htouch
      exact ⟨htouch, hv⟩
    have haccept := hforget.accept (x := ⟨e.sets, e.dueAt (outside (req.Resets c r.ftl) r.last)⟩)
      fun a v hv => (hdue a v hv).2
    refine ⟨?_, ?_⟩
    · simpa [StoreRun.command, items] using haccept
    · intro p hp a v hv
      rcases List.mem_append.1 hp with hp | hp
      · exact hreads p hp a v hv
      · obtain rfl : p = (e, e.dueAt (outside (req.Resets c r.ftl) r.last)) := by simpa using hp
        exact (hdue a v hv).1

/-- **An event keeps what is promised.** -/
theorem StoreRun.Faithful.step {r r' : StoreRun} {e : ServeEvent} (h : r.Faithful) (hcare : e.Careful r)
    (hstep : (znsStored c).step r e = .ok r') : r'.Faithful := by
  cases e with
  | command req w host =>
    simp only [znsStored] at hstep
    cases hq : znsEnqueue c r.ftl w req host with
    | error f => rw [hq] at hstep; cases hstep
    | ok q =>
      rw [hq] at hstep
      cases hstep
      exact h.command hq
  | perform i =>
    simp only [znsStored] at hstep
    cases hp : r.waiting[i]? with
    | none =>
      rw [hp] at hstep
      cases hstep
      exact h
    | some p =>
      rw [hp] at hstep
      cases hstep
      obtain ⟨hharm, hord⟩ := hcare p hp
      have hi : r.items[i]? = some ⟨p.1.sets, p.2⟩ := by rw [items, List.getElem?_map, hp, Option.map_some]
      have hperform := h.promised.perform hi fun y hy a => h.apart hord y hy
      refine ⟨?_, fun p' hp' => h.reads p' (List.mem_of_mem_eraseIdx hp')⟩
      show Promised (p.1.performIo r.ftl.storage) ((r.waiting.eraseIdx i).map _) r.last
      rw [ZnsEntry.performIo_eq hharm, ← List.eraseIdx_map]
      exact hperform
  | fire i =>
    simp only [znsStored] at hstep
    cases hstep
    refine ⟨?_, h.reads⟩
    show Promised (r.ftl.fire i).storage r.items r.last
    rw [r.ftl.fire_storage i]
    exact h.promised

theorem StoreRun.Faithful.run {r r' : StoreRun} {es : List ServeEvent} (h : r.Faithful)
    (hcare : (znsStored c).Along (fun r e => e.Careful r) r es)
    (hrun : (znsStored c).run r es = .ok r') : r'.Faithful := by
  refine (Machine.run_sat (E := fun _ => True) ?_ h hcare).of_ok hrun
  intro r e h hcare
  cases hs : (znsStored c).step r e with
  | error f => trivial
  | ok r₁ => exact h.step hcare hs

/-- **A read that is performed** finds what it is due to find. -/
theorem StoreRun.Faithful.read {r : StoreRun} {i a v : ℕ} {p : ZnsEntry × (ℕ → Option ℕ)} (h : r.Faithful)
    (hp : r.waiting[i]? = some p) (hcare : (ServeEvent.perform i).Careful r) (hdue : p.2 a = some v) :
    r.ftl.storage a = v := by
  have hi : r.items[i]? = some ⟨p.1.sets, p.2⟩ := by rw [items, List.getElem?_map, hp, Option.map_some]
  obtain ⟨hr, htouch⟩ := h.reads p (List.mem_of_getElem? hp) a v hdue
  refine h.promised.read hi hdue fun y hy => ?_
  rw [items, ← List.map_take, List.mem_map] at hy
  obtain ⟨p', hp', rfl⟩ := hy
  refine ZnsEntry.sets_eq_none fun hw => (hcare p hp).2 p' hp' ⟨.inr ⟨hr, hw.1⟩, ?_⟩
  exact ZnsEntry.shares_of_touches htouch hw.2

/-- **The storage holds what was written last**, once no write of the byte waits. -/
theorem StoreRun.Faithful.settled {r : StoreRun} {a v : ℕ} (h : r.Faithful) (hlast : r.last a = some v)
    (hnone : ∀ p ∈ r.waiting, ¬ (p.1.Writes ∧ p.1.Touches a)) : r.ftl.storage a = v := by
  refine h.promised.settled hlast fun y hy => ?_
  obtain ⟨p, hp, rfl⟩ := List.mem_map.1 hy
  exact ZnsEntry.sets_eq_none (hnone p hp)

/-! ## The theorem -/

/-- A server at the start: nothing waits, and nothing is noted. -/
def storeRunInit (s : ZnsFtl) : StoreRun := ⟨s, [], fun _ => none⟩

theorem faithful_init (s : ZnsFtl) : (storeRunInit s).Faithful where
  promised := .init _
  reads _ hp := nomatch hp

/-- A host whose memory holds `v` everywhere. -/
def constHost (v : ℕ) : HostData := ⟨fun _ => 0, fun _ => v⟩

/-- The write of one block. -/
def writeBlock (slba : BitVec 64) (v : ℕ) : ServeEvent :=
  .command ⟨.write ⟨slba, 0, 0⟩, 1, 0⟩ (.init 0) (constHost v)

/-- The read of one block. -/
def readBlock (slba : BitVec 64) : ServeEvent :=
  .command ⟨.read ⟨slba, 0, 0⟩, 1, 0⟩ (.init 0) (constHost 0)

/-- A new namespace whose storage holds zeros. -/
def zn540Init : ZnsFtl := znsInitFtl zn540 (fun _ => 0) fun _ => 0

/-- A block is written, a refused write of it carries the same data, and it is read. -/
def writeTwice : List ServeEvent := [writeBlock 0 7, .perform 0, writeBlock 0 7, .perform 0, readBlock 0]

/-- The other kind: a block is written, reset and written again, and the second copy is
    performed first.  The read is due to find 2. -/
example : ((znsStored zn540).run (storeRunInit zn540Init)
      [writeBlock 0 1, .command ⟨.mgmtSend ⟨0, ZSA_RESET_ZONE, false, false⟩, 1, 0⟩ (.init 0) (constHost 0),
        writeBlock 0 2, .perform 2, .perform 0, .perform 0, readBlock 0]).map
      (fun r => (r.waiting.map (·.2 0), (constHost 0).read 0 512 r.ftl.storage 0)) = .ok ([some 2], 1) := by
  decide +kernel

end WaitGc

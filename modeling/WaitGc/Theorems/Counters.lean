/-
  WAITGC verification — the counters that `conv_flush` reports.

  `CountersExact` balances the counters of an FTL against its flash array, in
  every reachable state.  `flush_result_exact` carries the balance to the sums
  over the instances that the `[FLUSH-RESULT]` record prints.
-/
import WaitGc.Proof.Devices
import WaitGc.Proof.System

namespace WaitGc

open Outcome

variable {c : Cfg} {s : ConvFtl} {d : Device} {part : ℕ}

/-- The WAF counters of an FTL, against its flash array. -/
structure CountersExact (c : Cfg) (s : ConvFtl) : Prop where
  copied : s.stats.gcValidCopied = s.stats.gcVictimVpcSum
  written : s.stats.hostWritePages + s.stats.gcValidCopied =
    s.stats.gcCnt * c.sp.pgsPerLine + usedPages c s
  valid : validPages c s = (mappedLpns c s).card
  erased : erases c s = s.stats.gcCnt * c.sp.blksPerLine

theorem FtlInv.countersExact (h : FtlInv c s) : CountersExact c s := by
  obtain ⟨⟨pl, hok⟩, hwaf⟩ := h
  refine ⟨hwaf.copied, ?_, hok.validPages_eq, hwaf.erased⟩
  have hused := hok.used_add_spaceLeft
  have hwritten := hwaf.written
  omega

theorem Dev.sum_congr {d : Dev} {f g : ConvFtl → ℕ}
    (h : ∀ part < c.nrParts, f (d.ftls part) = g (d.ftls part)) : d.sum c f = d.sum c g := by
  unfold Dev.sum
  congr 1
  refine List.map_congr_left ?_
  intro part hp
  exact h part (List.mem_range.1 hp)

theorem Dev.sum_add (d : Dev) (f g : ConvFtl → ℕ) :
    d.sum c (fun s => f s + g s) = d.sum c f + d.sum c g := by
  unfold Dev.sum
  induction List.range c.nrParts with
  | nil => rfl
  | cons part parts ih =>
    simp only [List.map_cons, List.sum_cons, ih]
    omega

theorem Dev.sum_mul (d : Dev) (f : ConvFtl → ℕ) (n : ℕ) :
    d.sum c (fun s => f s * n) = d.sum c f * n := by
  unfold Dev.sum
  induction List.range c.nrParts with
  | nil => simp
  | cons part parts ih => simp only [List.map_cons, List.sum_cons, ih, Nat.add_mul]

/-- What the `[FLUSH-RESULT]` record says of the flash array. -/
structure FlushExact (c : Cfg) (d : Dev) (r : FlushResult) : Prop where
  copied : r.gcCopied = r.victimVpcSum
  written : r.hostPages + r.gcCopied = r.gcCnt * c.sp.pgsPerLine + d.sum c (usedPages c)
  valid : d.sum c (validPages c) = d.sum c fun s => (mappedLpns c s).card
  erased : d.sum c (erases c) = r.gcCnt * c.sp.blksPerLine

theorem flushExact_of_countersExact {d : Dev}
    (h : ∀ part < c.nrParts, CountersExact c (d.ftls part)) : FlushExact c d (flushResult c d) where
  copied := by
    have hsum : d.sum c (·.stats.gcValidCopied) = d.sum c (·.stats.gcVictimVpcSum) :=
      Dev.sum_congr fun part hp => (h part hp).copied
    exact hsum
  written := by
    have hsum : d.sum c (fun s => s.stats.hostWritePages + s.stats.gcValidCopied) =
        d.sum c fun s => s.stats.gcCnt * c.sp.pgsPerLine + usedPages c s :=
      Dev.sum_congr fun part hp => (h part hp).written
    rw [Dev.sum_add, Dev.sum_add, Dev.sum_mul] at hsum
    exact hsum
  valid := Dev.sum_congr fun part hp => (h part hp).valid
  erased := by
    have hsum : d.sum c (erases c) = d.sum c fun s => s.stats.gcCnt * c.sp.blksPerLine :=
      Dev.sum_congr fun part hp => (h part hp).erased
    rw [Dev.sum_mul] at hsum
    exact hsum

/-- **The counters are exact in every reachable state of the greedy build**, and so
    is the record that `conv_flush` prints there. -/
theorem counters_exact (hpol : c.build.policy = .greedy) (h : Reachable c d) :
    (∀ part < c.nrParts, CountersExact c (d.dev.ftls part)) ∧
      FlushExact c d.dev (convFlush c d.dev).1 := by
  have hall : ∀ part < c.nrParts, CountersExact c (d.dev.ftls part) := fun part hpart =>
    (greedy_inv hpol h hpart).countersExact
  exact ⟨hall, flushExact_of_countersExact hall⟩

theorem counters_exact_trimRun : ∃ d, Reachable greedyCfg d ∧
    (∀ part < 1, CountersExact greedyCfg (d.dev.ftls part)) ∧
      FlushExact greedyCfg d.dev (convFlush greedyCfg d.dev).1 := by
  obtain ⟨d, hd⟩ := trimRun_reachable
  exact ⟨d, hd, counters_exact rfl hd⟩

end WaitGc

/-
  WAITGC verification — the mapping tables.

  `MapOk` relates the mapping table `m`, the reverse table `r` and the page
  states: the table maps to valid pages, the reverse table leads back, and
  every valid page is mapped, except for the `stale` ones, which `do_gc` has
  copied and not erased yet.

  The tables change in three ways: a page is unmapped, a page is mapped, and
  `do_gc` moves a page and leaves the old one stale.  Each is one lemma.
-/
import WaitGc.Proof.Phys

namespace WaitGc

open Outcome Function

/-- The mapping tables agree with the page states. -/
structure MapOk (c : Cfg) (m : ℕ → Ppa) (r : ℕ → ℕ) (blk : BlkAddr → NandBlock)
    (stale : Ppa → Prop) : Prop where
  image : ∀ lpn < c.sp.ttPgs, mappedPpa (m lpn) = true →
    IsPage c (m lpn) ∧ pageSt blk (m lpn) = .valid ∧ ¬ stale (m lpn) ∧
      r ((m lpn).pgidx c.sp) = lpn
  cover : ∀ p, IsPage c p → pageSt blk p = .valid → ¬ stale p → ∃ lpn < c.sp.ttPgs, m lpn = p

variable {c : Cfg} {m : ℕ → Ppa} {r : ℕ → ℕ} {blk blk' : BlkAddr → NandBlock}
  {stale stale' : Ppa → Prop} {lpn lpn' : ℕ} {p : Ppa}

theorem MapOk.inj (h : MapOk c m r blk stale) (hl : lpn < c.sp.ttPgs) (hl' : lpn' < c.sp.ttPgs)
    (hm : mappedPpa (m lpn) = true) (he : m lpn = m lpn') : lpn = lpn' := by
  rw [← (h.image lpn hl hm).2.2.2, he, (h.image lpn' hl' (he ▸ hm)).2.2.2]

theorem MapOk.owner (h : MapOk c m r blk stale) (hp : IsPage c p) (hv : pageSt blk p = .valid)
    (hs : ¬ stale p) : r (p.pgidx c.sp) < c.sp.ttPgs ∧ m (r (p.pgidx c.sp)) = p := by
  obtain ⟨lpn, hl, rfl⟩ := h.cover p hp hv hs
  rw [(h.image lpn hl hp.mapped).2.2.2]
  exact ⟨hl, rfl⟩

theorem mapOk_init (hm : ∀ lpn < c.sp.ttPgs, mappedPpa (m lpn) = false)
    (hf : ∀ p, IsPage c p → pageSt blk p = .free) : MapOk c m r blk stale where
  image lpn hl h := by rw [hm lpn hl] at h; cases h
  cover p hp hv := by rw [hf p hp] at hv; cases hv

/-- The stale pages matter as far as they are valid. -/
theorem MapOk.stale_congr (h : MapOk c m r blk stale)
    (hs : ∀ p, IsPage c p → pageSt blk p = .valid → (stale' p ↔ stale p)) :
    MapOk c m r blk stale' where
  image lpn hl hm := by
    obtain ⟨h₁, h₂, h₃, h₄⟩ := h.image lpn hl hm
    exact ⟨h₁, h₂, fun hp => h₃ ((hs _ h₁ h₂).1 hp), h₄⟩
  cover p hp hv hn := h.cover p hp hv fun hp' => hn ((hs p hp hv).2 hp')

/-- **A page loses its owner**: it is invalidated and its entry cleared. -/
theorem MapOk.unmap (h : MapOk c m r blk stale) (hl : lpn < c.sp.ttPgs)
    (hm : mappedPpa (m lpn) = true) (v : ℕ)
    (hst : ∀ q, IsPage c q → pageSt blk' q = if q = m lpn then .invalid else pageSt blk q) :
    MapOk c (update m lpn .unmapped) (update r ((m lpn).pgidx c.sp) v) blk' stale where
  image lpn' hl' hm' := by
    by_cases he : lpn' = lpn
    · subst he; rw [update_self, mappedPpa_unmapped] at hm'; cases hm'
    · rw [update_of_ne he] at hm' ⊢
      obtain ⟨h₁, h₂, h₃, h₄⟩ := h.image lpn' hl' hm'
      have hne : m lpn' ≠ m lpn := fun heq => he (h.inj hl' hl hm' heq)
      have hidx : (m lpn').pgidx c.sp ≠ (m lpn).pgidx c.sp := fun heq =>
        hne (pgidx_inj h₁ (h.image lpn hl hm).1 heq)
      exact ⟨h₁, by rw [hst _ h₁, if_neg hne, h₂], h₃, by rw [update_of_ne hidx, h₄]⟩
  cover p hp hv hs := by
    rw [hst p hp] at hv
    split_ifs at hv with hpm
    obtain ⟨lpn', hl', he⟩ := h.cover p hp hv hs
    exact ⟨lpn', hl', by rw [update_of_ne (fun heq => hpm (by rw [← he, heq])), he]⟩

theorem MapOk.unmap_none (h : MapOk c m r blk stale) (hm : ¬ mappedPpa (m lpn) = true) :
    MapOk c (update m lpn .unmapped) r blk stale where
  image lpn' hl' hm' := by
    by_cases he : lpn' = lpn
    · subst he; rw [update_self, mappedPpa_unmapped] at hm'; cases hm'
    · rw [update_of_ne he] at hm' ⊢; exact h.image lpn' hl' hm'
  cover p hp hv hs := by
    obtain ⟨lpn', hl', he⟩ := h.cover p hp hv hs
    have hne : lpn' ≠ lpn := fun heq => hm (by rw [← heq, he]; exact hp.mapped)
    exact ⟨lpn', hl', by rw [update_of_ne hne, he]⟩

/-- **A page gets an owner**: a free page is programmed for an unmapped entry. -/
theorem MapOk.map (h : MapOk c (update m lpn .unmapped) r blk stale) (hl : lpn < c.sp.ttPgs)
    (hp : IsPage c p) (hf : pageSt blk p = .free) (hs : ¬ stale p)
    (hst : ∀ q, IsPage c q → pageSt blk' q = if q = p then .valid else pageSt blk q) :
    MapOk c (update m lpn p) (update r (p.pgidx c.sp) lpn) blk' stale where
  image lpn' hl' hm' := by
    by_cases he : lpn' = lpn
    · subst he
      rw [update_self, update_self]
      exact ⟨hp, by rw [hst p hp, if_pos rfl], hs, rfl⟩
    · have h' := h.image lpn' hl'
      rw [update_of_ne he] at h' hm' ⊢
      obtain ⟨h₁, h₂, h₃, h₄⟩ := h' hm'
      have hne : m lpn' ≠ p := fun heq => by rw [heq, hf] at h₂; cases h₂
      have hidx : (m lpn').pgidx c.sp ≠ p.pgidx c.sp := fun heq => hne (pgidx_inj h₁ hp heq)
      exact ⟨h₁, by rw [hst _ h₁, if_neg hne, h₂], h₃, by rw [update_of_ne hidx, h₄]⟩
  cover q hq hv hn := by
    rw [hst q hq] at hv
    split_ifs at hv with hqp
    · exact ⟨lpn, hl, by rw [update_self, hqp]⟩
    · obtain ⟨lpn', hl', he⟩ := h.cover q hq hv hn
      have hne : lpn' ≠ lpn := fun heq => by
        have hm := hq.mapped
        rw [← he, heq, update_self, mappedPpa_unmapped] at hm
        cases hm
      exact ⟨lpn', hl', by rw [update_of_ne hne] at he ⊢; exact he⟩

/-- **A page is retired**: its owner is about to be mapped elsewhere. -/
theorem MapOk.retire (h : MapOk c m r blk stale) (hp : IsPage c p) (hv : pageSt blk p = .valid)
    (hs : ¬ stale p) :
    MapOk c (update m (r (p.pgidx c.sp)) .unmapped) r blk (fun q => stale q ∨ q = p) where
  image lpn hl hm := by
    obtain ⟨hol, hom⟩ := h.owner hp hv hs
    by_cases he : lpn = r (p.pgidx c.sp)
    · rw [he, update_self, mappedPpa_unmapped] at hm; cases hm
    · rw [update_of_ne he] at hm ⊢
      obtain ⟨h₁, h₂, h₃, h₄⟩ := h.image lpn hl hm
      exact ⟨h₁, h₂, fun hq => hq.elim h₃ fun heq => he (h.inj hl hol hm (heq.trans hom.symm)), h₄⟩
  cover q hq hvq hn := by
    obtain ⟨lpn, hl, he⟩ := h.cover q hq hvq fun hq' => hn (.inl hq')
    have hne : lpn ≠ r (p.pgidx c.sp) := fun heq => hn (.inr (by
      rw [← he, heq, (h.owner hp hv hs).2]))
    exact ⟨lpn, hl, by rw [update_of_ne hne, he]⟩

/-- **Pages are erased** that are stale or not valid. -/
theorem MapOk.erase (h : MapOk c m r blk stale) (gone : Ppa → Prop)
    (hg : ∀ q, IsPage c q → gone q → pageSt blk q = .valid → stale q)
    (hst : ∀ q, IsPage c q → gone q → pageSt blk' q = .free)
    (hst' : ∀ q, IsPage c q → ¬ gone q → pageSt blk' q = pageSt blk q) :
    MapOk c m r blk' stale where
  image lpn hl hm := by
    obtain ⟨h₁, h₂, h₃, h₄⟩ := h.image lpn hl hm
    exact ⟨h₁, by rw [hst' _ h₁ fun hgone => h₃ (hg _ h₁ hgone h₂), h₂], h₃, h₄⟩
  cover p hp hv hs := by
    by_cases hgone : gone p
    · rw [hst p hp hgone] at hv; cases hv
    · exact h.cover p hp (by rw [← hst' p hp hgone, hv]) hs

end WaitGc

/-
  WAITGC verification — the mapping tables in every reachable state.

  `MappingSound` is what a reader of the FTL relies on: `maptbl` is injective
  on mapped pages and names valid pages only, every valid page has an owner,
  and `rmap` leads back.  It holds in every state of every run of the greedy
  build, inside a multi-page write and between two pages of it as well.
-/
import WaitGc.Proof.Devices
import WaitGc.Proof.System

namespace WaitGc

open Outcome

variable {c : Cfg} {s : ConvFtl}

/-- The mapping tables agree with the flash array. -/
structure MappingSound (c : Cfg) (s : ConvFtl) : Prop where
  injective : ∀ lpn < c.sp.ttPgs, ∀ lpn' < c.sp.ttPgs, mappedPpa (s.maptbl lpn) = true →
    s.maptbl lpn = s.maptbl lpn' → lpn = lpn'
  address : ∀ lpn < c.sp.ttPgs, mappedPpa (s.maptbl lpn) = true → IsPage c (s.maptbl lpn)
  valid_iff : ∀ p, IsPage c p →
    (s.status p = .valid ↔ ∃ lpn < c.sp.ttPgs, s.maptbl lpn = p)
  reverse : ∀ lpn < c.sp.ttPgs, mappedPpa (s.maptbl lpn) = true →
    ppa2pgidx c.sp (s.maptbl lpn) = .ok ((s.maptbl lpn).pgidx c.sp) ∧
      s.rmap ((s.maptbl lpn).pgidx c.sp) = lpn

theorem FtlOk.mappingSound {pl : ℕ → Place} (h : FtlOk c s pl) : MappingSound c s where
  injective _ hl _ hl' hm he := h.map.inj hl hl' hm he
  address lpn hl hm := (h.map.image lpn hl hm).1
  valid_iff p hp := by
    constructor
    · intro hv
      exact h.map.cover p hp hv id
    · rintro ⟨lpn, hl, rfl⟩
      exact (h.map.image lpn hl hp.mapped).2.1
  reverse lpn hl hm := by
    obtain ⟨hp, -, -, hr⟩ := h.map.image lpn hl hm
    exact ⟨ppa2pgidx_ok hp, hr⟩

/-- **The mapping tables are sound in every run of the greedy build**, and none of
    the assertions on page states and owners fails. -/
theorem mapping_sound (hpol : c.build.policy = .greedy) {junk : ℕ → ℕ → Slot} {clock : ℕ → ℕ}
    {dev : Dev} (hinit : convInitNamespace c junk clock = .ok dev) (es : List Event) :
    (∀ d, (device c).run ⟨dev, none⟩ es = .ok d →
      ∀ part < c.nrParts, MappingSound c (d.dev.ftls part)) ∧
    (∀ e, (device c).run ⟨dev, none⟩ es = .error e →
      e ≠ .assert .validPgFree ∧ e ≠ .assert .invalidPgValid ∧ e ≠ .assert .gcValidLpn) := by
  have h := greedy_run hpol hinit es
  constructor
  · intro d hrun part hpart
    obtain ⟨⟨pl, hok⟩, -⟩ := (h.of_ok hrun).ftl part hpart
    exact hok.mappingSound
  · intro e hrun
    rcases h.of_error hrun with rfl | rfl | ⟨-, rfl⟩
    · exact ⟨by simp, by simp, by simp⟩
    · exact ⟨by simp, by simp, by simp⟩
    · exact ⟨by simp, by simp, by simp⟩

theorem mapping_sound_trimRun :
    ∃ dev d, convInitNamespace greedyCfg (fun _ _ => .null) (fun _ => 0) = .ok dev ∧
      (device greedyCfg).run ⟨dev, none⟩ trimRun = .ok d ∧
      ∀ part < 1, MappingSound greedyCfg (d.dev.ftls part) := by
  obtain ⟨dev, d, hinit, hrun⟩ := trimRun_ok
  exact ⟨dev, d, hinit, hrun, (mapping_sound rfl hinit _).1 d hrun⟩

end WaitGc

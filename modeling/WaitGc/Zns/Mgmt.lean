/-
  WAITGC verification — zone management (`zns_mgmt_send.c`).

  One function for each action; each is the `switch` on the zone's state, with
  its cases that run into the next.  `zmgmtSend` selects the action for one
  zone, `znsZmgmtSend` is the command.
-/
import WaitGc.Zns.State

namespace WaitGc

open Outcome Function

variable (c : ZnsCfg)

/-- `enum zone_send_action`; the field has 8 bits. -/
def ZSA_CLOSE_ZONE : BitVec 8 := 0x1
def ZSA_FINISH_ZONE : BitVec 8 := 0x2
def ZSA_OPEN_ZONE : BitVec 8 := 0x3
def ZSA_RESET_ZONE : BitVec 8 := 0x4
def ZSA_OFFLINE_ZONE : BitVec 8 := 0x5
def ZSA_FLUSH_EXPL_ZRWA : BitVec 8 := 0x11

/-- `struct nvme_zone_mgmt_send`. -/
structure ZmgmtSendCommand where
  slba : BitVec 64
  zsa : BitVec 8
  selectAll : Bool
  zsaso : Bool

/-! ## Actions -/

/-- `__zmgmt_send_close_zone` -/
def zmgmtSendCloseZone (s : ZnsFtl) (zid : ℕ) : ZnsStatus × ZnsFtl :=
  match (s.zoneDescs zid).state with
  | .openedImpl | .openedExpl =>
    (.success, (s.changeZoneState zid .closed).releaseZoneResource .openZone)
  | .closed => (.success, s)
  | _ => (.invalidTransition, s)

/-- `release_zone_resource(ZRWA_ZONE)`, if the zone has a random write area. -/
def ZnsFtl.releaseZrwa (s : ZnsFtl) (isZrwaZone : Bool) : ZnsFtl :=
  if isZrwaZone then s.releaseZoneResource .zrwaZone else s

/-- `__zmgmt_send_finish_zone` -/
def zmgmtSendFinishZone (s : ZnsFtl) (zid : ℕ) : ZnsStatus × ZnsFtl :=
  let isZrwaZone := (s.zoneDescs zid).zrwav
  let closed (s : ZnsFtl) :=
    ((s.releaseZoneResource .activeZone).releaseZrwa isZrwaZone).changeZoneState zid .full
  match (s.zoneDescs zid).state with
  | .openedImpl | .openedExpl => (.success, closed (s.releaseZoneResource .openZone))
  | .closed => (.success, closed s)
  | .empty => (.success, s.changeZoneState zid .full)
  | .full => (.success, s)
  | _ => (.invalidTransition, s)

/-- The case `ZONE_STATE_CLOSED` of `__zmgmt_send_open_zone`, and what follows it. -/
def openClosedZone (s : ZnsFtl) (zid : ℕ) : ZnsStatus × ZnsFtl :=
  match s.acquireZoneResource .openZone with
  | (false, s) => (.noOpenZone, s)
  | (true, s) => (.success, s.changeZoneState zid .openedExpl)

/-- `__zmgmt_send_open_zone` -/
def zmgmtSendOpenZone (s : ZnsFtl) (zid : ℕ) (zrwa : Bool) : ZnsStatus × ZnsFtl :=
  match (s.zoneDescs zid).state with
  | .empty =>
    if s.isZoneResourceFull .activeZone then (.noActiveZone, s)
    else if s.isZoneResourceFull .openZone then (.noOpenZone, s)
    else if zrwa then
      if s.isZoneResourceFull .zrwaZone then (.zrwaRsrcUnavail, s)
      else
        let s := (s.acquireZoneResource .zrwaZone).2
        let s := s.setZone zid { s.zoneDescs zid with zrwav := true }
        openClosedZone (s.acquireZoneResource .activeZone).2 zid
    else openClosedZone (s.acquireZoneResource .activeZone).2 zid
  | .closed => openClosedZone s zid
  | .openedImpl => (.success, s.changeZoneState zid .openedExpl)
  | .openedExpl => (.success, s)
  | _ => (.invalidTransition, s)

/-- `buffer_refill` -/
def bufferRefill (buf : Buffer) : Buffer := { buf with remaining := buf.size }

/-- `__reset_zone` -/
def resetZone (s : ZnsFtl) (zid : ℕ) : ZnsFtl :=
  let z := s.zoneDescs zid
  let s := { s with storage := memset s.storage (u64 (zid * c.zp.zoneSize)) c.zp.zoneSize 0 }
  let s := s.setZone zid { z with wp := z.zslba, zrwav := false }
  if c.zp.zrwaBufferSize ≠ 0 then s.setBuffer (.zrwa zid) (bufferRefill (s.buffers (.zrwa zid))) else s

/-- `__zmgmt_send_reset_zone` -/
def zmgmtSendResetZone (s : ZnsFtl) (zid : ℕ) : ZnsStatus × ZnsFtl :=
  let isZrwaZone := (s.zoneDescs zid).zrwav
  let full (s : ZnsFtl) := resetZone c (s.changeZoneState zid .empty) zid
  let closed (s : ZnsFtl) := full ((s.releaseZoneResource .activeZone).releaseZrwa isZrwaZone)
  match (s.zoneDescs zid).state with
  | .openedImpl | .openedExpl => (.success, closed (s.releaseZoneResource .openZone))
  | .closed => (.success, closed s)
  | .full | .empty => (.success, full s)
  | _ => (.invalidTransition, s)

/-- `__zmgmt_send_offline_zone` -/
def zmgmtSendOfflineZone (s : ZnsFtl) (zid : ℕ) : ZnsStatus × ZnsFtl :=
  match (s.zoneDescs zid).state with
  | .readOnly => (.success, s.changeZoneState zid .offline)
  | .offline => (.success, s)
  | _ => (.invalidTransition, s)

/-- The zone state `ZSF`: what `__zmgmt_send_flush_explicit_zrwa` does when the write
    pointer reaches the end. -/
def flushFull (s : ZnsFtl) (zid : ℕ) (curState : ZoneState) : ZnsFtl :=
  let s := if curState ≠ .closed then s.releaseZoneResource .openZone else s
  ((s.releaseZoneResource .activeZone).releaseZoneResource .zrwaZone).changeZoneState zid .full

/-- `__zmgmt_send_flush_explicit_zrwa` -/
def zmgmtSendFlushExplicitZrwa (s : ZnsFtl) (slba : ℕ) : Except ZnsFault (ZnsStatus × ZnsFtl) :=
  let zid := lbaToZone c slba
  let z := s.zoneDescs zid
  let zrwaEnd := min (sub64 (u64 (z.wp + c.zp.lbasPerZrwa)) 1)
    (sub64 (u64 (zoneToSlba c zid + z.zoneCapacity)) 1)
  let flush := u64 (sub64 slba z.wp + 1)
  if z.zrwav = false then pure (.invalidZoneOperation, s)
  else if ¬ (z.wp ≤ slba ∧ slba ≤ zrwaEnd) then pure (.invalidZoneOperation, s)
  else do
    require (c.zp.lbasPerZrwafg ≠ 0) .divideByZero
    if flush % c.zp.lbasPerZrwafg ≠ 0 then pure (.invalidField, s)
    else match z.state with
      | .openedExpl | .openedImpl | .closed =>
        let wp := u64 (slba + 1)
        let s := s.setZone zid { z with wp }
        if wp = u64 (zoneToSlba c zid + z.zoneCapacity) then pure (.success, flushFull s zid z.state)
        else pure (.success, s)
      | _ => pure (.invalidZoneOperation, s)

/-! ## The command -/

/-- `__zmgmt_send` -/
def zmgmtSend (s : ZnsFtl) (slba : ℕ) (action : BitVec 8) (option : Bool) :
    Except ZnsFault (ZnsStatus × ZnsFtl) :=
  let zid := lbaToZone c slba
  if action = ZSA_CLOSE_ZONE then .ok (zmgmtSendCloseZone s zid)
  else if action = ZSA_FINISH_ZONE then .ok (zmgmtSendFinishZone s zid)
  else if action = ZSA_OPEN_ZONE then .ok (zmgmtSendOpenZone s zid option)
  else if action = ZSA_RESET_ZONE then .ok (zmgmtSendResetZone c s zid)
  else if action = ZSA_OFFLINE_ZONE then .ok (zmgmtSendOfflineZone s zid)
  else if action = ZSA_FLUSH_EXPL_ZRWA then zmgmtSendFlushExplicitZrwa c s slba
  else .ok (.indeterminate, s)

/-- The loop of `zns_zmgmt_send` over all zones. -/
def zmgmtSendAll (s : ZnsFtl) (action : BitVec 8) (option : Bool) : Except ZnsFault ZnsFtl :=
  (List.range c.zp.nrZones).foldlM
    (fun s zid => (zmgmtSend c s (zoneToSlba c zid) action option).map Prod.snd) s

/-- `zns_zmgmt_send` -/
def znsZmgmtSend (s : ZnsFtl) (cmd : ZmgmtSendCommand) : Except ZnsFault (ZnsStatus × ZnsFtl) :=
  if cmd.selectAll then (zmgmtSendAll c s cmd.zsa cmd.zsaso).map fun s => (.success, s)
  else zmgmtSend c s cmd.slba.toNat cmd.zsa cmd.zsaso

end WaitGc

/-
  WAITGC verification — zone reports (`zns_mgmt_recv.c`).

  A report is put together in `report_buffer`, which keeps what earlier reports
  left in it, and copied to the host: `bytes_transfer` decides what is put
  there, `length` what is copied.
-/
import WaitGc.Io.Copy
import WaitGc.Lib.Extent
import WaitGc.Zns.State

namespace WaitGc

open Outcome Function

variable (c : ZnsCfg)

/-- `struct nvme_zone_mgmt_recv`, the fields the command reads. -/
structure ZmgmtRecvCommand where
  slba : BitVec 64
  nrDw : BitVec 32
  zra : BitVec 8
  zraSpecificField : BitVec 8
  zraSpecificFeatures : Bool

/-! ## The layout of a report -/

/-- Byte `i` of a number. -/
def leByte (v i : ℕ) : ℕ := v / 256 ^ i % 256

/-- The numbers of `enum zone_state`. -/
def ZoneState.code : ZoneState → ℕ
  | .empty => 0x1
  | .openedImpl => 0x2
  | .openedExpl => 0x3
  | .closed => 0x4
  | .readOnly => 0xD
  | .full => 0xE
  | .offline => 0xF

def ZONE_TYPE_SEQ_WRITE_REQUIRED : ℕ := 0x2

/-- `sizeof(struct zone_descriptor)` -/
def DESCRIPTOR_SIZE : ℕ := 64

/-- `offsetof(struct zone_report, zd)` -/
def REPORT_HEADER_SIZE : ℕ := 64

/-- The bytes of `struct zone_descriptor`. -/
def ZoneDescriptor.byte (z : ZoneDescriptor) (j : ℕ) : ℕ :=
  if j = 0 then ZONE_TYPE_SEQ_WRITE_REQUIRED
  else if j = 1 then z.state.code <<< 4
  else if j = 2 then z.zrwav.toNat <<< 3
  else if j < 8 then 0
  else if j < 16 then leByte z.zoneCapacity (j - 8)
  else if j < 24 then leByte z.zslba (j - 16)
  else if j < 32 then leByte z.wp (j - 24)
  else 0

/-! ## The command -/

/-- `bytes_transfer` and `length`: `nr_dw + 1` has 32 bits. -/
def ZmgmtRecvCommand.length (cmd : ZmgmtRecvCommand) : ℕ := u32 (cmd.nrDw.toNat + 1) * 4

/-- `nr_zone_to_report` -/
def nrZoneToReport (cmd : ZmgmtRecvCommand) : ℕ :=
  let startZid := lbaToZone c cmd.slba.toNat
  let nr := if cmd.zraSpecificFeatures = false then sub64 c.zp.nrZones startZid
    else sub64 (cmd.length / DESCRIPTOR_SIZE) 1
  if sub64 c.zp.nrZones startZid < nr then sub64 c.zp.nrZones startZid else nr

/-- `__fill_zone_report`: what the buffer holds afterwards. -/
def fillZoneReport (s : ZnsFtl) (cmd : ZmgmtRecvCommand) (report : ℕ → ℕ) : ℕ → ℕ :=
  let startZid := lbaToZone c cmd.slba.toNat
  let nr := nrZoneToReport c cmd
  fun j =>
    if j < 8 then leByte nr j
    else if REPORT_HEADER_SIZE ≤ j ∧ j - REPORT_HEADER_SIZE < DESCRIPTOR_SIZE * nr then
      (s.zoneDescs (startZid + (j - REPORT_HEADER_SIZE) / DESCRIPTOR_SIZE)).byte
        ((j - REPORT_HEADER_SIZE) % DESCRIPTOR_SIZE)
    else report j

/-- `__check_zmgmt_rcv_option_supported` -/
def checkZmgmtRcvOptionSupported (cmd : ZmgmtRecvCommand) : Bool :=
  lbaToZone c cmd.slba.toNat < c.zp.nrZones ∧ cmd.zra = 0 ∧ cmd.zraSpecificField = 0

/-- The parts of the buffer that the loop of `__prp_transfer_data` copies, in their order;
    the pages of the host are those of `__do_perform_io`. -/
def HostData.parts (h : HostData) : ℕ → ℕ → ℕ → ℕ → List Extent
  | 0, _, _, _ => []
  | fuel + 1, n, offset, remaining =>
    if remaining = 0 then []
    else
      let ioSize := h.ioSize n remaining
      ⟨offset, ioSize⟩ :: h.parts fuel (n + 1) (u64 (offset + ioSize)) (remaining - ioSize)

/-- What `__prp_transfer_data` does: the parts of the buffer it reads, and the bytes
    the host gets. -/
structure PrpTransfer where
  parts : List Extent
  data : ℕ → ℕ

/-- `__prp_transfer_data(prp1, prp2, buffer, length, 0)` -/
def prpTransferData (host : HostData) (buffer : ℕ → ℕ) (length : ℕ) : PrpTransfer where
  parts := host.parts length 0 0 length
  data := host.performRead buffer length 0 0 length

/-- The outcome of `zns_zmgmt_recv`: the status, what is transferred, and
    `report_buffer`. -/
structure RecvOutcome where
  status : ZnsStatus
  transfer : Option PrpTransfer
  report : ℕ → ℕ

/-- `zns_zmgmt_recv` -/
def znsZmgmtRecv (s : ZnsFtl) (report : ℕ → ℕ) (host : HostData) (cmd : ZmgmtRecvCommand) :
    RecvOutcome :=
  if checkZmgmtRcvOptionSupported c cmd then
    let report := fillZoneReport c s cmd report
    ⟨.success, some (prpTransferData host report cmd.length), report⟩
  else ⟨.invalidField, none, report⟩

end WaitGc

/-
  WAITGC verification — the admin queue (`admin.c`).

  A handler of an admin command writes what the host asked for to the page
  `prp1` names, updates the device, and posts the completion itself:
  `__make_cq_entry` is called in every handler, and not after the dispatch.

  * `AdminCommand` is the union of the commands: the words of a submission entry,
    and the fields that the handlers read them as.
  * The arrays of the device are functions of the index, as is the memory of the
    two rings: an index outside reads whatever lies there.  A namespace id of the
    host is not compared with the number of namespaces, so the handlers of identify
    read behind `ns` and `ns_ssd_type`, too.
  * `posted` records the entries written to the completion ring, each with its
    slot, in order.

  The indices are C `int`s; the registers hold values far below `2 ^ 31`.
-/
import WaitGc.Io.Completion

namespace WaitGc

open Outcome Function

/-! ## Submission entries -/

/-- `struct nvme_command`, as an admin command. -/
structure AdminCommand where
  opcode : UInt8
  commandId : UInt16
  nsid : UInt32
  prp1 : UInt64
  cdw10 : UInt32
  cdw11 : UInt32
  deriving DecidableEq, Repr

namespace AdminCommand
variable (cmd : AdminCommand)

/-- `identify.cns`, assigned to an `int`. -/
def cns : ℤ := int32 cmd.cdw10.toNat

/-- `features.fid` -/
def fid : ℕ := cmd.cdw10.toNat

/-- `features.dword11` -/
def dword11 : ℕ := cmd.cdw11.toNat

/-- `get_log_page.lid` -/
def lid : ℕ := cmd.cdw10.toNat % 2 ^ 8

/-- `get_log_page.numdl` -/
def numdl : ℕ := cmd.cdw10.toNat / 2 ^ 16

/-- `get_log_page.numdu` -/
def numdu : ℕ := cmd.cdw11.toNat % 2 ^ 16

/-- `create_cq.cqid`, `create_sq.sqid` and `delete_queue.qid` -/
def qid : ℕ := cmd.cdw10.toNat % 2 ^ 16

/-- `create_cq.qsize` and `create_sq.qsize` -/
def qsize : ℕ := cmd.cdw10.toNat / 2 ^ 16

/-- `create_sq.cqid` -/
def cqid : ℕ := cmd.cdw11.toNat / 2 ^ 16

/-- `int nsid = cmd->nsid - 1` -/
def nsIndex : ℤ := int32 (cmd.nsid.toNat - 1)

end AdminCommand

/-- The opcodes that `__nvmev_proc_admin_req` tells apart. -/
inductive AdminOpcode where
  | deleteSq
  | createSq
  | getLogPage
  | deleteCq
  | createCq
  | identify
  | abortCmd
  | setFeatures
  | getFeatures
  | asyncEvent
  | other
  deriving DecidableEq, Repr

/-- The values of `enum nvme_admin_opcode`. -/
def AdminCommand.adminOpcode (cmd : AdminCommand) : AdminOpcode :=
  match cmd.opcode.toNat with
  | 0x00 => .deleteSq
  | 0x01 => .createSq
  | 0x02 => .getLogPage
  | 0x04 => .deleteCq
  | 0x05 => .createCq
  | 0x06 => .identify
  | 0x08 => .abortCmd
  | 0x09 => .setFeatures
  | 0x0a => .getFeatures
  | 0x0c => .asyncEvent
  | _ => .other

/-! ## What the handlers write to the host -/

/-- `struct nvme_lbaf` -/
structure Lbaf where
  ms : ℕ
  ds : ℕ
  rp : ℕ
  deriving DecidableEq, Repr

/-- `struct nvme_id_ns`: what is not zero. -/
structure IdNs where
  nsze : ℕ
  ncap : ℕ
  nuse : ℕ
  nlbaf : ℕ
  flbas : ℕ
  dps : ℕ
  lbaf : List Lbaf
  deriving DecidableEq, Repr

/-- `struct nvme_id_ctrl`: what is not zero. -/
structure IdCtrl where
  nn : ℕ
  oncs : ℕ
  acl : ℕ
  vwc : ℕ
  sn : String
  mn : String
  fr : String
  mdts : ℕ
  sqes : ℕ
  cqes : ℕ
  deriving DecidableEq, Repr

/-- `struct nvme_id_zns_ns`: what is not zero. -/
structure IdZnsNs where
  zoc : ℕ
  ozcs : ℕ
  mar : ℕ
  mor : ℕ
  numzrwa : ℕ
  zrwafg : ℕ
  zrwasz : ℕ
  zrwacap : ℕ
  zsze : ℕ
  zdes : ℕ
  deriving DecidableEq, Repr

/-- `struct nvme_smart_log`: what is set. -/
structure SmartLog where
  criticalWarning : ℕ
  spareThresh : ℕ
  deriving DecidableEq, Repr

/-- `struct nvme_effects_log`: the commands whose word is not zero. -/
structure EffectsLog where
  acs : List (ℕ × ℕ)
  iocs : List (ℕ × ℕ)
  deriving DecidableEq, Repr

/-- The content of a page of the host; a log page is its first `len` bytes. -/
inductive AdminPage where
  | idNs (ns : IdNs)
  | idCtrl (ctrl : IdCtrl)
  | nsList (nsids : List ℕ)
  | nsDesc (nidt nidl nid : ℕ)
  | idZnsNs (ns : IdZnsNs)
  | idZnsCtrl (zasl : ℕ)
  | smartLog (log : SmartLog) (len : ℕ)
  | effectsLog (log : EffectsLog) (len : ℕ)
  | zeros (len : ℕ)
  deriving DecidableEq, Repr

/-! ## The device -/

/-- `SSD_TYPE_*` -/
inductive SsdType where
  | nvm
  | conv
  | zns
  | kv
  deriving DecidableEq, Repr

/-- `NVME_CSI_ZNS` -/
def NVME_CSI_ZNS : ℕ := 2

/-- The parameters of `struct znsparams` that a controller reports. -/
structure ZnsLimits where
  nrActiveZones : ℕ
  nrOpenZones : ℕ
  nrZrwaZones : ℕ
  zrwafgSize : ℕ
  zrwaSize : ℕ
  zoneSize : ℕ
  deriving DecidableEq, Repr

/-- `struct nvmev_ns` with its `NS_SSD_TYPE`. -/
structure NvmevNs where
  ssdType : SsdType
  csi : ℕ
  size : ℕ
  zp : ZnsLimits

/-- The array of the namespaces and what lies around it: `zns_init_namespace` set
    the command set of the zoned ones. -/
structure Namespaces where
  ns : ℤ → NvmevNs
  nrNs : ℕ
  csi_zns : ∀ i : ℕ, i < nrNs → (ns i).ssdType = .zns → (ns i).csi = NVME_CSI_ZNS

/-- The index of a namespace. -/
def Namespaces.Has (n : Namespaces) (i : ℤ) : Prop := 0 ≤ i ∧ i < n.nrNs

instance (n : Namespaces) (i : ℤ) : Decidable (n.Has i) := inferInstanceAs (Decidable (_ ∧ _))

/-- `struct nvmev_admin_queue` and the memory of its rings. -/
structure AdminQueue where
  phase : Bool
  sqDepth : ℤ
  cqDepth : ℤ
  cqHead : ℤ
  nvmeSq : ℤ → AdminCommand
  nvmeCq : ℤ → NvmeCompletion

/-- What `nvmev_proc_bars` sets up when the host writes `aqa`, `asq` and `acq`. -/
def AdminQueue.create (asqs acqs : ℕ) (nvmeSq : ℤ → AdminCommand) (nvmeCq : ℤ → NvmeCompletion) :
    AdminQueue where
  phase := true
  sqDepth := asqs + 1
  cqDepth := acqs + 1
  cqHead := 0
  nvmeSq := nvmeSq
  nvmeCq := nvmeCq

/-- `struct nvmev_dev`: what the admin commands use of it, the pages they wrote,
    and what host memory holds where a completion queue is created. -/
structure AdminDev extends Namespaces where
  mdts : ℕ
  nrSq : ℕ
  nrCq : ℕ
  sqes : ℕ → Option SubmissionQueue
  cqes : ℕ → Option CompletionQueue
  dbs : ℕ → ℤ
  oldDbs : ℕ → ℤ
  adminQ : AdminQueue
  posted : List (ℤ × NvmeCompletion)
  written : List (UInt64 × AdminPage)
  ringAt : UInt64 → ℤ → NvmeCompletion

/-- `NR_MAX_IO_QUEUE` -/
def NR_MAX_IO_QUEUE : ℕ := 72

/-- `NVME_SC_SUCCESS` -/
def NVME_SC_SUCCESS : ℕ := 0x0

/-- `NVME_SC_INVALID_OPCODE` -/
def NVME_SC_INVALID_OPCODE : ℕ := 0x1

namespace AdminDev
variable (d : AdminDev)

/-- `sq_entry(eid)` -/
def sqEntry (eid : ℤ) : AdminCommand := d.adminQ.nvmeSq eid

/-- The handlers write to the page at `prp1`. -/
def write (prp : UInt64) (page : AdminPage) : AdminDev := { d with written := d.written ++ [(prp, page)] }

end AdminDev

/-! ## Completions -/

/-- The entry of `__make_cq_entry_results`. -/
def AdminCommand.cqe (cmd : AdminCommand) (eid : ℤ) (phase : Bool) (ret result0 result1 : ℕ) :
    NvmeCompletion where
  result0 := result0
  result1 := result1
  sqHead := (eid % 2 ^ 16).toNat
  sqId := 0
  commandId := cmd.commandId.toNat
  status := u16 (phase.toNat ||| (ret <<< 1))

/-- `__make_cq_entry_results` -/
def makeCqEntryResults (d : AdminDev) (eid : ℤ) (ret result0 result1 : ℕ) : AdminDev :=
  let queue := d.adminQ
  let cqe := (d.sqEntry eid).cqe eid queue.phase ret result0 result1
  { d with
    adminQ := { queue with
      nvmeCq := update queue.nvmeCq queue.cqHead cqe
      cqHead := if queue.cqHead + 1 = queue.cqDepth then 0 else queue.cqHead + 1
      phase := if queue.cqHead + 1 = queue.cqDepth then !queue.phase else queue.phase }
    posted := d.posted ++ [(queue.cqHead, cqe)] }

/-- `__make_cq_entry` -/
def makeCqEntry (d : AdminDev) (eid : ℤ) (ret : ℕ) : AdminDev := makeCqEntryResults d eid ret 0 0

/-! ## Queue managements -/

/-- `__nvmev_admin_create_cq` -/
def nvmevAdminCreateCq (d : AdminDev) (eid : ℤ) : AdminDev :=
  let cmd := d.sqEntry eid
  let cq : CompletionQueue := .create cmd.qsize (d.ringAt cmd.prp1)
  let d := { d with
    cqes := update d.cqes cmd.qid (some cq)
    dbs := update d.dbs (cqDbsIdx cmd.qid) 0
    oldDbs := update d.oldDbs (cqDbsIdx cmd.qid) 0 }
  makeCqEntry d eid NVME_SC_SUCCESS

/-- `__nvmev_admin_delete_cq` -/
def nvmevAdminDeleteCq (d : AdminDev) (eid : ℤ) : AdminDev :=
  let qid := (d.sqEntry eid).qid
  makeCqEntry { d with cqes := update d.cqes qid none } eid NVME_SC_SUCCESS

/-- `__nvmev_admin_create_sq` -/
def nvmevAdminCreateSq (d : AdminDev) (eid : ℤ) : AdminDev :=
  let cmd := d.sqEntry eid
  let sq : SubmissionQueue := ⟨cmd.cqid, cmd.qsize + 1, ⟨0, 0, 0, 0, 0⟩⟩
  let d := { d with
    sqes := update d.sqes cmd.qid (some sq)
    dbs := update d.dbs (sqDbsIdx cmd.qid) 0
    oldDbs := update d.oldDbs (sqDbsIdx cmd.qid) 0 }
  makeCqEntry d eid NVME_SC_SUCCESS

/-- `__nvmev_admin_delete_sq` -/
def nvmevAdminDeleteSq (d : AdminDev) (eid : ℤ) : AdminDev :=
  let qid := (d.sqEntry eid).qid
  makeCqEntry { d with sqes := update d.sqes qid none } eid NVME_SC_SUCCESS

/-! ## Log pages -/

/-- `smart_log` -/
def smartLog : SmartLog := ⟨0, 20⟩

/-- `effects_log`; a build with zoned namespaces supports their commands. -/
def effectsLog (zns : Bool) : EffectsLog where
  acs := [(0x02, 1), (0x06, 1), (0x09, 1), (0x0a, 1), (0x0c, 1)]
  iocs := if zns then [(0x7d, 1), (0x79, 3), (0x7a, 1)] else []

/-- `SUPPORTED_SSD_TYPE(ZNS)` -/
def AdminDev.supportsZns (d : AdminDev) : Bool := (List.range d.nrNs).any fun i => (d.ns i).ssdType = .zns

/-- `__nvmev_admin_get_log_page` -/
def nvmevAdminGetLogPage (d : AdminDev) (eid : ℤ) : AdminDev :=
  let cmd := d.sqEntry eid
  let len := u32 (u32 (((cmd.numdu <<< 16) ||| cmd.numdl) + 1) <<< 2)
  let page : AdminPage :=
    match cmd.lid with
    | 0x02 => .smartLog smartLog len
    | 0x05 => .effectsLog (effectsLog d.supportsZns) len
    | _ => .zeros len
  makeCqEntry (d.write cmd.prp1 page) eid NVME_SC_SUCCESS

/-! ## Identify functions -/

/-- `NVME_LBAF_RP_GOOD` and `NVME_LBAF_RP_BEST` in the formats reported. -/
def idLbaf : List Lbaf :=
  [⟨0, 9, 2⟩, ⟨8, 9, 2⟩, ⟨16, 9, 2⟩, ⟨0, 12, 0⟩, ⟨8, 12, 0⟩, ⟨64, 12, 0⟩, ⟨128, 12, 0⟩]

/-- `__nvmev_admin_identify_namespace`; `LBA_BITS` is 9.  `nsid` is a `size_t`
    here. -/
def nvmevAdminIdentifyNamespace (d : AdminDev) (eid : ℤ) : AdminDev :=
  let cmd := d.sqEntry eid
  let nsid : ℤ := ((cmd.nsid.toNat : ℤ) - 1) % 2 ^ 32
  let nsze := (d.ns nsid).size >>> 9
  makeCqEntry (d.write cmd.prp1 (.idNs ⟨nsze, nsze, nsze, 6, 0, 0, idLbaf⟩)) eid NVME_SC_SUCCESS

/-- `__nvmev_admin_identify_namespaces` -/
def nvmevAdminIdentifyNamespaces (d : AdminDev) (eid : ℤ) : AdminDev :=
  let cmd := d.sqEntry eid
  let nsids := (List.range' 1 d.nrNs).filter fun i => cmd.nsid.toNat < i
  makeCqEntry (d.write cmd.prp1 (.nsList nsids)) eid NVME_SC_SUCCESS

/-- `__nvmev_admin_identify_namespace_desc`; `NVME_NIDT_CSI` is 4. -/
def nvmevAdminIdentifyNamespaceDesc (d : AdminDev) (eid : ℤ) : AdminDev :=
  let cmd := d.sqEntry eid
  makeCqEntry (d.write cmd.prp1 (.nsDesc 4 1 (d.ns cmd.nsIndex).csi)) eid NVME_SC_SUCCESS

/-- The data of `__nvmev_admin_identify_zns_namespace`, its resources 0-based in
    32 bits. -/
def ZnsLimits.idZnsNs (zpp : ZnsLimits) : IdZnsNs where
  zoc := 0
  ozcs := if 0 < zpp.nrZrwaZones then 2 else 0
  mar := ((zpp.nrActiveZones - 1 : ℤ) % 2 ^ 32).toNat
  mor := ((zpp.nrOpenZones - 1 : ℤ) % 2 ^ 32).toNat
  numzrwa := if 0 < zpp.nrZrwaZones then zpp.nrZrwaZones - 1 else 0
  zrwafg := if 0 < zpp.nrZrwaZones then u16 zpp.zrwafgSize else 0
  zrwasz := if 0 < zpp.nrZrwaZones then u16 zpp.zrwaSize else 0
  zrwacap := if 0 < zpp.nrZrwaZones then 1 else 0
  zsze := zpp.zoneSize >>> 9
  zdes := 0

/-- `__nvmev_admin_identify_zns_namespace`: `none` where `BUG_ON` stops the
    kernel. -/
def nvmevAdminIdentifyZnsNamespace (d : AdminDev) (eid : ℤ) : Option AdminDev :=
  let cmd := d.sqEntry eid
  let ns := d.ns cmd.nsIndex
  if ns.ssdType ≠ .zns then some (makeCqEntry d eid NVME_SC_SUCCESS)
  else if ns.csi ≠ NVME_CSI_ZNS then none
  else some (makeCqEntry (d.write cmd.prp1 (.idZnsNs ns.zp.idZnsNs)) eid NVME_SC_SUCCESS)

/-- `__nvmev_admin_identify_zns_ctrl` -/
def nvmevAdminIdentifyZnsCtrl (d : AdminDev) (eid : ℤ) : AdminDev :=
  makeCqEntry (d.write (d.sqEntry eid).prp1 (.idZnsCtrl 0)) eid NVME_SC_SUCCESS

/-- `__nvmev_admin_identify_ctrl` -/
def nvmevAdminIdentifyCtrl (d : AdminDev) (eid : ℤ) : AdminDev :=
  let ctrl : IdCtrl := ⟨d.nrNs, 0, 3, 0, "CSL_Virt_SN_01", "CSL_Virt_MN_01", "CSL_002", d.mdts, 0x66, 0x44⟩
  makeCqEntry (d.write (d.sqEntry eid).prp1 (.idCtrl ctrl)) eid NVME_SC_SUCCESS

/-- `__nvmev_admin_identify` -/
def nvmevAdminIdentify (d : AdminDev) (eid : ℤ) : Option AdminDev :=
  match (d.sqEntry eid).cns with
  | 0x00 => some (nvmevAdminIdentifyNamespace d eid)
  | 0x01 => some (nvmevAdminIdentifyCtrl d eid)
  | 0x02 => some (nvmevAdminIdentifyNamespaces d eid)
  | 0x03 => some (nvmevAdminIdentifyNamespaceDesc d eid)
  | 0x05 => nvmevAdminIdentifyZnsNamespace d eid
  | 0x06 => some (nvmevAdminIdentifyZnsCtrl d eid)
  | _ => some (makeCqEntry d eid NVME_SC_INVALID_OPCODE)

/-! ## Set and get features -/

/-- `NVME_FEAT_NUM_QUEUES` -/
def NVME_FEAT_NUM_QUEUES : ℕ := 0x07

/-- `(nr_cq - 1) << 16 | (nr_sq - 1)` -/
def AdminDev.numQueues (d : AdminDev) : ℕ :=
  ((((d.nrCq : ℤ) - 1) * 2 ^ 16 % 2 ^ 32).toNat) ||| (((d.nrSq : ℤ) - 1) % 2 ^ 32).toNat

/-- `__nvmev_admin_set_features`: every feature but the number of queues is
    ignored. -/
def nvmevAdminSetFeatures (d : AdminDev) (eid : ℤ) : AdminDev :=
  let cmd := d.sqEntry eid
  if cmd.fid = NVME_FEAT_NUM_QUEUES then
    -- # of sq and # of cq in 0-base
    let d := { d with
      nrSq := min (cmd.dword11 % 2 ^ 16 + 1) NR_MAX_IO_QUEUE
      nrCq := min (cmd.dword11 / 2 ^ 16 + 1) NR_MAX_IO_QUEUE }
    makeCqEntryResults d eid NVME_SC_SUCCESS d.numQueues 0
  else makeCqEntryResults d eid NVME_SC_SUCCESS 0 0

/-- `__nvmev_admin_get_features` -/
def nvmevAdminGetFeatures (d : AdminDev) (eid : ℤ) : AdminDev :=
  makeCqEntryResults d eid NVME_SC_SUCCESS
    (if (d.sqEntry eid).fid = NVME_FEAT_NUM_QUEUES then d.numQueues else 0) 0

/-! ## The queue -/

/-- `__nvmev_admin_async_event` -/
def nvmevAdminAsyncEvent (d : AdminDev) (eid : ℤ) : AdminDev := makeCqEntry d eid NVME_SC_SUCCESS

/-- `__nvmev_proc_admin_req` -/
def nvmevProcAdminReq (d : AdminDev) (entryId : ℤ) : Option AdminDev :=
  match (d.sqEntry entryId).adminOpcode with
  | .deleteSq => some (nvmevAdminDeleteSq d entryId)
  | .createSq => some (nvmevAdminCreateSq d entryId)
  | .getLogPage => some (nvmevAdminGetLogPage d entryId)
  | .deleteCq => some (nvmevAdminDeleteCq d entryId)
  | .createCq => some (nvmevAdminCreateCq d entryId)
  | .identify => nvmevAdminIdentify d entryId
  | .abortCmd => some d
  | .setFeatures => some (nvmevAdminSetFeatures d entryId)
  | .getFeatures => some (nvmevAdminGetFeatures d entryId)
  | .asyncEvent => some (nvmevAdminAsyncEvent d entryId)
  | .other => some (makeCqEntry d entryId NVME_SC_INVALID_OPCODE)

/-- The loop of `nvmev_proc_admin_sq`, with `n` iterations left. -/
def adminSqLoop : ℕ → AdminDev → ℤ → Option AdminDev
  | 0, d, _ => some d
  | n + 1, d, curr => do
    let d ← nvmevProcAdminReq d curr
    adminSqLoop n d (if curr + 1 = d.adminQ.sqDepth then 0 else curr + 1)

/-- The number of entries between two values of the doorbell. -/
def adminNumProc (d : AdminDev) (newDb oldDb : ℤ) : ℕ :=
  (if newDb - oldDb < 0 then newDb - oldDb + d.adminQ.sqDepth else newDb - oldDb).toNat

/-- `nvmev_proc_admin_sq` -/
def nvmevProcAdminSq (d : AdminDev) (newDb oldDb : ℤ) : Option AdminDev :=
  adminSqLoop (adminNumProc d newDb oldDb) d oldDb

/-- `nvmev_proc_dbs`, the doorbell of the admin submission queue. -/
def nvmevProcDbsAdminSq (d : AdminDev) : Option AdminDev :=
  let newDb := d.dbs 0
  if newDb ≠ d.oldDbs 0 then
    (nvmevProcAdminSq d newDb (d.oldDbs 0)).map fun d =>
      { d with oldDbs := update d.oldDbs 0 newDb }
  else some d

/-- `nvmev_proc_dbs`, the doorbell of the admin completion queue:
    `nvmev_proc_admin_cq` does nothing. -/
def nvmevProcDbsAdminCq (d : AdminDev) : AdminDev :=
  let newDb := d.dbs 1
  if newDb ≠ d.oldDbs 1 then { d with oldDbs := update d.oldDbs 1 newDb } else d

/-! ## The machine -/

/-- `nvmev_vdev` when the host has set up the admin queue. -/
def AdminDev.init (asqs acqs mdts : ℕ) (namespaces : Namespaces) (nvmeSq : ℤ → AdminCommand)
    (nvmeCq : ℤ → NvmeCompletion) (ringAt : UInt64 → ℤ → NvmeCompletion) : AdminDev where
  toNamespaces := namespaces
  mdts := mdts
  nrSq := 0
  nrCq := 0
  sqes _ := none
  cqes _ := none
  dbs _ := 0
  oldDbs _ := 0
  adminQ := .create asqs acqs nvmeSq nvmeCq
  posted := []
  written := []
  ringAt := ringAt

/-- The slots of the submission ring that `n` iterations visit from `curr` on. -/
def adminSlots (sqDepth : ℤ) : ℕ → ℤ → List ℤ
  | 0, _ => []
  | n + 1, curr => curr :: adminSlots sqDepth n (if curr + 1 = sqDepth then 0 else curr + 1)

/-- The entries the doorbell announces, each with its slot, in ring order. -/
def AdminDev.announced (d : AdminDev) : List (ℤ × AdminCommand) :=
  if d.dbs 0 ≠ d.oldDbs 0 then
    (adminSlots d.adminQ.sqDepth (adminNumProc d (d.dbs 0) (d.oldDbs 0)) (d.oldDbs 0)).map
      fun eid => (eid, d.sqEntry eid)
  else []

/-- The device, and the entries that were processed so far. -/
structure AdminRun where
  dev : AdminDev
  processed : List (ℤ × AdminCommand)

/-- The events of the machine. -/
inductive AdminEvent where
  /-- The host writes a submission entry. -/
  | submit (eid : ℤ) (cmd : AdminCommand)
  /-- The host writes the doorbell of the submission queue. -/
  | ring (v : ℤ)
  /-- The host writes the doorbell of the completion queue. -/
  | ringCq (v : ℤ)
  /-- The dispatcher looks at the doorbells. -/
  | poll

/-- The machine; it stops where the kernel does. -/
def adminMachine : Machine AdminRun AdminEvent Unit where
  step s
    | .submit eid cmd => .ok { s with
        dev.adminQ.nvmeSq := update s.dev.adminQ.nvmeSq eid cmd }
    | .ring v => .ok { s with dev.dbs := update s.dev.dbs 0 v }
    | .ringCq v => .ok { s with dev.dbs := update s.dev.dbs 1 v }
    | .poll =>
      match nvmevProcDbsAdminSq s.dev with
      | none => .error ()
      | some d => .ok ⟨nvmevProcDbsAdminCq d, s.processed ++ s.dev.announced⟩

end WaitGc

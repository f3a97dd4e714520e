import Tnix.Config
import Tnix.Foundation.Machine

/-! # `disk.c`

Requests to the disk by any number of tasks, each with a buffer of its own, the interrupt
handler and the device, which serves requests in any order. A call that sleeps may be woken at
any time. -/

namespace Tnix.Dev

open Function

def NUM : Nat := 8

def VRING_DESC_F_NEXT : UInt16 := 1

def VRING_DESC_F_WRITE : UInt16 := 2

def VIRTIO_BLK_T_IN : UInt32 := 0

def VIRTIO_BLK_T_OUT : UInt32 := 1

/-- What a descriptor points to: a request header, the data of a task's buffer or the status
byte of a request. -/
inductive Addr (Task : Type)
  | null
  | op (i : Nat)
  | data (b : Task)
  | status (i : Nat)
  deriving DecidableEq

structure Desc (Task : Type) where
  addr : Addr Task
  len : Nat
  flags : UInt16
  next : Nat

def Desc.zero {Task : Type} : Desc Task := ⟨.null, 0, 0, 0⟩

structure Virtq where
  idx : UInt16
  ring : Nat → Nat

structure BlkReq where
  type : UInt32
  sector : Nat

structure Info (Task : Type) where
  b : Option Task
  status : UInt8

structure Idx where
  op : Nat
  data : Nat
  status : Nat
  deriving DecidableEq

inductive DiskPc
  | idle
  /-- Before `spin_get(&disk.vdisk_lock)`. -/
  | enter (write : Bool) (blockno : Nat)
  /-- At `alloc3_desc`. -/
  | alloc (write : Bool) (blockno : Nat)
  /-- In `sleep` for descriptors. -/
  | sleepDesc (write : Bool) (blockno : Nat)
  /-- At `disk.avail->idx += 1`. -/
  | notify (idx : Idx)
  /-- At the test of `b->disk`. -/
  | wait (idx : Idx)
  /-- In `sleep` for the request. -/
  | sleepBuf (idx : Idx)
  deriving DecidableEq

inductive Holder (Task : Type)
  | task (t : Task)
  | intr
  deriving DecidableEq

inductive DiskFault
  | panic (message : String)
  /-- A buffer pointer that is `NULL` is dereferenced. -/
  | null
  /-- A chain of descriptors does not end. -/
  | endless
  deriving DecidableEq

/-- `busy` is `b->disk` of the buffer of each task. The device has taken the chains of `avail`
up to `taken`, of which it has still to serve `pending`. The last three fields only record
the buffers of the requests: those that were made, those that the device has completed and
those whose completion the handler has seen. -/
structure Disk (Task : Type) where
  desc : Nat → Desc Task
  avail : Virtq
  used : Virtq
  free : Nat → Bool
  usedIdx : UInt16
  info : Nat → Info Task
  ops : Nat → BlkReq
  lock : Option (Holder Task)
  busy : Task → Bool
  pc : Task → DiskPc
  taken : UInt16
  pending : List Nat
  requested : List Task
  completed : List Task
  cleared : List Task

variable {Task : Type} [DecidableEq Task]

namespace Disk

def setPc (disk : Disk Task) (t : Task) (pc : DiskPc) : Disk Task :=
  { disk with pc := update disk.pc t pc }

/-! ## Descriptors -/

def allocDesc (disk : Disk Task) : Option (Nat × Disk Task) :=
  match (List.range NUM).find? disk.free with
  | some i => some (i, { disk with free := update disk.free i false })
  | none => none

def freeDesc (disk : Disk Task) (i : Nat) : Except DiskFault (Disk Task) :=
  if NUM ≤ i then .error (.panic "free_desc: i>NUM")
  else if disk.free i then .error (.panic "free_desc: disk.free[i]")
  else .ok { disk with
    desc := update disk.desc i .zero
    free := update disk.free i true }

/-- Each turn of the loop frees a descriptor, so there are no more than `NUM` of them. -/
def freeChainFrom : Nat → Disk Task → Nat → Except DiskFault (Disk Task)
  | 0, _, _ => .error .endless
  | fuel + 1, disk, i => do
    let flag := (disk.desc i).flags
    let nxt := (disk.desc i).next
    let disk ← disk.freeDesc i
    if flag &&& VRING_DESC_F_NEXT ≠ 0 then freeChainFrom fuel disk nxt
    else .ok disk

def freeChain (disk : Disk Task) (i : Nat) : Except DiskFault (Disk Task) :=
  freeChainFrom NUM disk i

/-- The loop over the three descriptors, which gives back those it has if there are no more. -/
def alloc3Desc (disk : Disk Task) : Except DiskFault (Option Idx × Disk Task) :=
  match disk.allocDesc with
  | none => .ok (none, disk)
  | some (op, disk) =>
    match disk.allocDesc with
    | none => do
      let disk ← disk.freeDesc op
      .ok (none, disk)
    | some (data, disk) =>
      match disk.allocDesc with
      | none => do
        let disk ← disk.freeDesc op
        let disk ← disk.freeDesc data
        .ok (none, disk)
      | some (status, disk) => .ok (some ⟨op, data, status⟩, disk)

/-! ## `virtio_disk_rw` -/

def format (disk : Disk Task) (t : Task) (write : Bool) (blockno : Nat) (idx : Idx) : Disk Task :=
  let dataFlags := if write then 0 else VRING_DESC_F_WRITE
  let desc := update disk.desc idx.op ⟨.op idx.op, 16, VRING_DESC_F_NEXT, idx.data⟩
  let desc := update desc idx.data
    ⟨.data t, BSIZE, dataFlags ||| VRING_DESC_F_NEXT, idx.status⟩
  let desc := update desc idx.status ⟨.status idx.op, 1, VRING_DESC_F_WRITE, 0⟩
  { disk with
    ops := update disk.ops idx.op
      ⟨if write then VIRTIO_BLK_T_OUT else VIRTIO_BLK_T_IN, blockno * (BSIZE / 512)⟩
    desc := desc
    info := update disk.info idx.op ⟨some t, 255⟩
    busy := update disk.busy t true
    avail := { disk.avail with
      ring := update disk.avail.ring (disk.avail.idx.toNat % NUM) idx.op } }

/-- What is under the lock from the call of `alloc3_desc` on. -/
def virtioDiskAlloc (disk : Disk Task) (t : Task) (write : Bool) (blockno : Nat) :
    Except DiskFault (Disk Task) := do
  match ← disk.alloc3Desc with
  | (none, disk) => .ok ({ disk with lock := none }.setPc t (.sleepDesc write blockno))
  | (some idx, disk) => .ok ((disk.format t write blockno idx).setPc t (.notify idx))

def virtioDiskFree (disk : Disk Task) (t : Task) (idx : Idx) : Except DiskFault (Disk Task) := do
  let disk := { disk with
    info := update disk.info idx.op { disk.info idx.op with b := none } }
  let disk ← disk.freeChain idx.op
  .ok ({ disk with lock := none }.setPc t .idle)

def spinGet (disk : Disk Task) (t : Task) (pc : DiskPc) : Option (Except DiskFault (Disk Task)) :=
  if disk.lock = none then some (.ok ({ disk with lock := some (.task t) }.setPc t pc)) else none

def virtioDiskRw (disk : Disk Task) (t : Task) : Option (Except DiskFault (Disk Task)) :=
  match disk.pc t with
  | .idle => none
  | .enter write blockno => disk.spinGet t (.alloc write blockno)
  | .alloc write blockno => some (disk.virtioDiskAlloc t write blockno)
  | .sleepDesc write blockno => disk.spinGet t (.alloc write blockno)
  | .notify idx =>
    some (.ok ({ disk with
      avail := { disk.avail with idx := disk.avail.idx + 1 }
      requested := disk.requested ++ [t] }.setPc t (.wait idx)))
  | .wait idx =>
    if disk.busy t then some (.ok ({ disk with lock := none }.setPc t (.sleepBuf idx)))
    else some (disk.virtioDiskFree t idx)
  | .sleepBuf idx => disk.spinGet t (.wait idx)

/-! ## `virtio_disk_intr` -/

/-- One turn of the loop over the used entries. -/
def virtioDiskSeen (disk : Disk Task) : Except DiskFault (Disk Task) :=
  let id := disk.used.ring (disk.usedIdx.toNat % NUM)
  if (disk.info id).status ≠ 0 then .error (.panic "virtio_disk_intr: status")
  else
    match (disk.info id).b with
    | none => .error .null
    | some b => .ok { disk with
        busy := update disk.busy b false
        usedIdx := disk.usedIdx + 1
        cleared := disk.cleared ++ [b] }

def virtioDiskIntr (disk : Disk Task) : Option (Except DiskFault (Disk Task)) :=
  match disk.lock with
  | none => some (.ok { disk with lock := some .intr })
  | some .intr =>
    if disk.usedIdx ≠ disk.used.idx then some disk.virtioDiskSeen
    else some (.ok { disk with lock := none })
  | some (.task _) => none

/-! ## The device -/

def deviceTake (disk : Disk Task) : Option (Except DiskFault (Disk Task)) :=
  if disk.taken = disk.avail.idx then none
  else some (.ok { disk with
    taken := disk.taken + 1
    pending := disk.pending ++ [disk.avail.ring (disk.taken.toNat % NUM)] })

def writeStatus (disk : Disk Task) : Addr Task → Nat → Info Task
  | .status i => update disk.info i { disk.info i with status := 0 }
  | _ => disk.info

/-- The buffer that a data descriptor points to. -/
def bufferOf : Addr Task → List Task
  | .data b => [b]
  | _ => []

/-- The device completes the request with the head `i`: it follows the chain to its three
descriptors, writes the status and puts the head into the used ring. -/
def deviceComplete (disk : Disk Task) (i : Nat) : Option (Except DiskFault (Disk Task)) :=
  let data := (disk.desc i).next
  let status := (disk.desc data).next
  if i ∈ disk.pending then some (.ok { disk with
    pending := disk.pending.erase i
    info := disk.writeStatus (disk.desc status).addr
    used := ⟨disk.used.idx + 1, update disk.used.ring (disk.used.idx.toNat % NUM) i⟩
    completed := disk.completed ++ bufferOf (disk.desc data).addr })
  else none

end Disk

/-! ## Interleavings -/

inductive DiskLabel (Task : Type)
  /-- A task without a request calls `virtio_disk_rw`. -/
  | call (t : Task) (write : Bool) (blockno : Nat)
  | rw (t : Task)
  | intr
  | take
  | complete (i : Nat)
  deriving DecidableEq

namespace Disk

def act (disk : Disk Task) : DiskLabel Task → Option (Except DiskFault (Disk Task))
  | .call t write blockno =>
    if disk.pc t = .idle then some (.ok (disk.setPc t (.enter write blockno))) else none
  | .rw t => disk.virtioDiskRw t
  | .intr => disk.virtioDiskIntr
  | .take => disk.deviceTake
  | .complete i => disk.deviceComplete i

def init : Disk Task where
  desc _ := .zero
  avail := ⟨0, fun _ => 0⟩
  used := ⟨0, fun _ => 0⟩
  free _ := true
  usedIdx := 0
  info _ := ⟨none, 0⟩
  ops _ := ⟨0, 0⟩
  lock := none
  busy _ := false
  pc _ := .idle
  taken := 0
  pending := []
  requested := []
  completed := []
  cleared := []

end Disk

def diskMachine (Task : Type) [DecidableEq Task] : Machine (Disk Task) (DiskLabel Task) where
  Initial disk := disk = .init
  step disk label := (disk.act label).bind Except.toOption

end Tnix.Dev

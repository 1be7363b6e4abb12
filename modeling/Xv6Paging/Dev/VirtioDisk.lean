import Mathlib.Data.List.FinRange
import Mathlib.Logic.Relation
import Xv6Paging.Logic.Circular

/-!
# The virtio disk driver

`virtio_disk_rw` puts a request into three linked descriptors, publishes the first one in the avail
ring and sleeps until `virtio_disk_intr` finds it in the used ring.  Descriptor numbers that are
read from memory (`next`, the entries of the rings) are checked at their use.

The callers are those of `bio.c`: a process that calls `virtio_disk_rw` has locked the buffer.
-/

namespace Xv6Paging

open Circular
open Function (update)

/-- `NUM`. -/
abbrev numDesc : Nat := 8

instance : Wraps numDesc 16 := ⟨by decide, by decide⟩

abbrev vringDescFNext : BitVec 16 := 1

abbrev vringDescFWrite : BitVec 16 := 2

/-- What the address of a descriptor points to. -/
inductive DescAddr (β : Type)
  | null
  | op (i : Fin numDesc)
  | data (b : β)
  | status (i : Fin numDesc)
deriving DecidableEq

/-- `struct virtq_desc`. -/
structure Desc (β : Type) where
  addr : DescAddr β
  len : Nat
  flags : BitVec 16
  next : Nat

/-- A descriptor that is not in use. -/
def Desc.zero {β : Type} : Desc β := ⟨.null, 0, 0, 0⟩

/-- `struct virtio_blk_req`. -/
structure BlkReq where
  type : Nat
  reserved : Nat
  sector : BitVec 64

/-- An entry of `disk.info`. -/
structure ReqInfo (β : Type) where
  b : Option β
  status : UInt8

/-- `struct disk`. -/
structure VirtioDisk (β : Type) where
  desc : Fin numDesc → Desc β
  /-- `avail->ring` and `avail->idx` -/
  availRing : Fin numDesc → Nat
  availIdx : BitVec 16
  /-- `used->ring[].id` and `used->idx` -/
  usedRing : Fin numDesc → Nat
  usedRingIdx : BitVec 16
  free : Fin numDesc → Bool
  usedIdx : BitVec 16
  info : Fin numDesc → ReqInfo β
  ops : Fin numDesc → BlkReq

/-- `virtio_disk_init`. -/
def VirtioDisk.init {β : Type} : VirtioDisk β where
  desc _ := .zero
  availRing _ := 0
  availIdx := 0
  usedRing _ := 0
  usedRingIdx := 0
  free _ := true
  usedIdx := 0
  info _ := ⟨none, 0⟩
  ops _ := ⟨0, 0, 0⟩

/-- `idx[3]`: the descriptors of a request. -/
structure Chain where
  head : Fin numDesc
  mid : Fin numDesc
  last : Fin numDesc
deriving DecidableEq

namespace Chain

/-- The three descriptors. -/
def descs (c : Chain) : List (Fin numDesc) := [c.head, c.mid, c.last]

/-- They are different ones. -/
def Distinct (c : Chain) : Prop := c.descs.Nodup

end Chain

/-- The arguments of `virtio_disk_rw`, with the sector computed from `b->blockno`. -/
structure RwArgs (β : Type) where
  b : β
  write : Bool
  sector : BitVec 64

/-- `b->blockno * (BSIZE / 512)`, a product of 32 bits. -/
def sectorOf (blockno : BitVec 32) : BitVec 64 := (blockno * 2).setWidth 64

/-- A place in `virtio_disk_rw`. -/
inductive RwPc (β : Type)
  | out
  | entering (a : RwArgs β)
  | allocating (a : RwArgs β)
  | allocAsleep (a : RwArgs β)
  | allocWoken (a : RwArgs β)
  | waiting (b : β) (c : Chain)
  | waitAsleep (b : β) (c : Chain)
  | waitWoken (b : β) (c : Chain)

/-- What a process sleeps on. -/
inductive RwChan (β : Type)
  | free
  | buf (b : β)
deriving DecidableEq

namespace RwPc

variable {β : Type}

/-- The buffer the call is about. -/
def buf : RwPc β → Option β
  | out => none
  | entering a | allocating a | allocAsleep a | allocWoken a => some a.b
  | waiting b _ | waitAsleep b _ | waitWoken b _ => some b

/-- The request that was published, with its descriptors. -/
def inFlight : RwPc β → Option (β × Chain)
  | waiting b c | waitAsleep b c | waitWoken b c => some (b, c)
  | _ => none

/-- The channel of a sleeping process. -/
def chan : RwPc β → Option (RwChan β)
  | allocAsleep _ => some .free
  | waitAsleep b _ => some (.buf b)
  | _ => none

/-- The process is not asleep any more. -/
def rouse : RwPc β → RwPc β
  | allocAsleep a => allocWoken a
  | waitAsleep b c => waitWoken b c
  | pc => pc

@[simp] theorem buf_rouse (pc : RwPc β) : pc.rouse.buf = pc.buf := by cases pc <;> rfl

@[simp] theorem inFlight_rouse (pc : RwPc β) : pc.rouse.inFlight = pc.inFlight := by
  cases pc <;> rfl

end RwPc

/-- The ways in which the driver stops the machine. -/
inductive VirtioPanic
  | freeDesc1
  | freeDesc2
  | status
  /-- an access through a null pointer, or outside of `disk.info` -/
  | fault
deriving DecidableEq

/-- Who owns `vdisk_lock`. -/
inductive VdiskOwner (ι : Type)
  | process (i : ι)
  | intr

/-- The driver, its callers and the device.  `seen` and `working` belong to the device: how far it
has looked in the avail ring, and the requests that it has not finished.  The two counters count
requests, and assignments of 0 to `b->disk`. -/
structure VirtioSystem (ι β : Type) where
  disk : VirtioDisk β
  lock : Option (VdiskOwner ι)
  /-- `b->disk` -/
  flag : β → Bool
  /-- the process that has locked the buffer -/
  owner : β → Option ι
  pc : ι → RwPc β
  seen : BitVec 16
  working : List Nat
  requests : β → Nat
  clears : β → Nat
  crashed : Option VirtioPanic

namespace VirtioSystem

variable {ι β : Type}

/-- The system after `virtio_disk_init`. -/
def init : VirtioSystem ι β where
  disk := .init
  lock := none
  flag _ := false
  owner _ := none
  pc _ := .out
  seen := 0
  working := []
  requests _ := 0
  clears _ := 0
  crashed := none

/-- `release(&disk.vdisk_lock)`. -/
def release (s : VirtioSystem ι β) : VirtioSystem ι β := { s with lock := none }

/-- The machine stops if something has gone wrong. -/
def settle (s : VirtioSystem ι β) : Except VirtioPanic (VirtioSystem ι β) → VirtioSystem ι β
  | .ok t => t
  | .error e => { s with crashed := some e }

section Places

variable [DecidableEq ι]

/-- The process `i` goes to another place. -/
def goto (s : VirtioSystem ι β) (i : ι) (pc : RwPc β) : VirtioSystem ι β :=
  { s with pc := update s.pc i pc }

/-- `acquire(&disk.vdisk_lock)`. -/
def acquire (s : VirtioSystem ι β) (i : ι) : VirtioSystem ι β :=
  { s with lock := some (.process i) }

end Places

variable [DecidableEq β]

def wakeup (s : VirtioSystem ι β) (ch : RwChan β) : VirtioSystem ι β :=
  { s with pc := fun j => if (s.pc j).chan = some ch then (s.pc j).rouse else s.pc j }

/-! ## Descriptors -/

/-- `alloc_desc`: the first free descriptor, which is not free any more. -/
def allocDesc (s : VirtioSystem ι β) : Option (Fin numDesc × VirtioSystem ι β) :=
  match (List.finRange numDesc).find? fun i => s.disk.free i with
  | some i => some (i, { s with disk.free := update s.disk.free i false })
  | none => none

/-- The descriptor is free, and the processes that wait for one are awake. -/
def freed (s : VirtioSystem ι β) (i : Fin numDesc) : VirtioSystem ι β :=
  { s with
    disk.desc := update s.disk.desc i .zero
    disk.free := update s.disk.free i true }.wakeup .free

def freeDesc (s : VirtioSystem ι β) (i : Nat) : Except VirtioPanic (VirtioSystem ι β) :=
  if h : i < numDesc then
    if s.disk.free ⟨i, h⟩ then .error .freeDesc2 else .ok (s.freed ⟨i, h⟩)
  else .error .freeDesc1

/-- `free_chain`, with a bound on its rounds: every round frees one more descriptor, so that
`free_desc` panics after `NUM` of them. -/
def freeChain (s : VirtioSystem ι β) (i : Nat) : Nat → Except VirtioPanic (VirtioSystem ι β)
  | 0 => .error .freeDesc2
  | rounds + 1 =>
    if h : i < numDesc then
      let flag := (s.disk.desc ⟨i, h⟩).flags
      let nxt := (s.disk.desc ⟨i, h⟩).next
      match s.freeDesc i with
      | .error e => .error e
      | .ok t => if flag &&& vringDescFNext ≠ 0 then t.freeChain nxt rounds else .ok t
    else .error .freeDesc1

/-- `alloc3_desc`: three descriptors, or none if there are fewer. -/
def alloc3Desc (s : VirtioSystem ι β) :
    Except VirtioPanic (Option Chain × VirtioSystem ι β) :=
  match s.allocDesc with
  | none => .ok (none, s)
  | some (i₀, s₁) =>
    match s₁.allocDesc with
    | none => do
      let t ← s₁.freeDesc i₀
      return (none, t)
    | some (i₁, s₂) =>
      match s₂.allocDesc with
      | none => do
        let t ← s₂.freeDesc i₀
        let t ← t.freeDesc i₁
        return (none, t)
      | some (i₂, s₃) => .ok (some ⟨i₀, i₁, i₂⟩, s₃)

/-! ## `virtio_disk_rw` and `virtio_disk_intr` -/

/-- The three descriptors of a request. -/
def formatDesc (d : Fin numDesc → Desc β) (a : RwArgs β) (c : Chain) : Fin numDesc → Desc β :=
  let d := update d c.head ⟨.op c.head, 16, vringDescFNext, c.mid⟩
  let flags := if a.write then 0 else vringDescFWrite
  let d := update d c.mid ⟨.data a.b, 1024, flags ||| vringDescFNext, c.last⟩
  update d c.last ⟨.status c.head, 1, vringDescFWrite, 0⟩

/-- The request is formatted and published. -/
def format (s : VirtioSystem ι β) (a : RwArgs β) (c : Chain) : VirtioSystem ι β :=
  { s with
    disk :=
      { s.disk with
        ops := update s.disk.ops c.head ⟨if a.write then 1 else 0, 0, a.sector⟩
        desc := formatDesc s.disk.desc a c
        info := update s.disk.info c.head ⟨some a.b, 0xff⟩
        availRing := update s.disk.availRing (slot numDesc s.disk.availIdx) c.head
        availIdx := s.disk.availIdx + 1 }
    flag := update s.flag a.b true
    requests := update s.requests a.b (s.requests a.b + 1) }

/-- `virtio_disk_rw` tries to allocate the descriptors; it sleeps, or publishes the request. -/
def rwAlloc [DecidableEq ι] (s : VirtioSystem ι β) (i : ι) (a : RwArgs β) :
    Except VirtioPanic (VirtioSystem ι β) := do
  match ← s.alloc3Desc with
  | (some c, t) => return (t.format a c).goto i (.waiting a.b c)
  | (none, t) => return t.release.goto i (.allocAsleep a)

/-- `disk.info[i].b = 0`. -/
def forget (s : VirtioSystem ι β) (i : Fin numDesc) : VirtioSystem ι β :=
  { s with disk.info := update s.disk.info i { s.disk.info i with b := none } }

/-- The end of `virtio_disk_rw`. -/
def rwFinish [DecidableEq ι] (s : VirtioSystem ι β) (i : ι) (c : Chain) :
    Except VirtioPanic (VirtioSystem ι β) := do
  let t ← (s.forget c.head).freeChain c.head numDesc
  return t.release.goto i .out

/-- A completion is noted. -/
def complete (s : VirtioSystem ι β) (b : β) : VirtioSystem ι β :=
  { s.wakeup (.buf b) with
    flag := update s.flag b false
    clears := update s.clears b (s.clears b + 1)
    disk.usedIdx := s.disk.usedIdx + 1 }

/-- A round of the loop of `virtio_disk_intr`. -/
def intrRound (s : VirtioSystem ι β) : Except VirtioPanic (VirtioSystem ι β) :=
  let id := s.disk.usedRing (slot numDesc s.disk.usedIdx)
  if h : id < numDesc then
    if (s.disk.info ⟨id, h⟩).status ≠ 0 then .error .status
    else match (s.disk.info ⟨id, h⟩).b with
      | none => .error .fault
      | some b => .ok (s.complete b)
  else .error .fault

end VirtioSystem

/-! ## The device -/

namespace VirtioDisk

variable {β : Type}

/-- The descriptor of a number that the device has read. -/
def descAt (d : VirtioDisk β) (n : Nat) : Desc β := if h : n < numDesc then d.desc ⟨n, h⟩ else .zero

/-- The device follows a chain to its third descriptor and writes the status 0 there. -/
def writeStatus (d : VirtioDisk β) (h : Nat) : VirtioDisk β :=
  match (d.descAt (d.descAt (d.descAt h).next).next).addr with
  | .status i => { d with info := update d.info i { d.info i with status := 0 } }
  | _ => d

/-- The device puts a finished request into the used ring. -/
def report (d : VirtioDisk β) (h : Nat) : VirtioDisk β :=
  { d with
    usedRing := update d.usedRing (slot numDesc d.usedRingIdx) h
    usedRingIdx := d.usedRingIdx + 1 }

end VirtioDisk

namespace VirtioSystem

variable {ι β : Type}

/-- The device looks at the next entry of the avail ring. -/
def fetch (s : VirtioSystem ι β) : VirtioSystem ι β :=
  { s with
    working := s.working ++ [s.disk.availRing (slot numDesc s.seen)]
    seen := s.seen + 1 }

/-- The device finishes the request `h`. -/
def serve (s : VirtioSystem ι β) (h : Nat) : VirtioSystem ι β :=
  { s with working := s.working.erase h, disk := (s.disk.writeStatus h).report h }

end VirtioSystem

/-! ## Steps -/

/-- The steps.  Processes and interrupt handlers take turns by `vdisk_lock`; the device reports each
request that it has read exactly once, in any order. -/
inductive VirtioStep {ι β : Type} [DecidableEq ι] [DecidableEq β] :
    VirtioSystem ι β → VirtioSystem ι β → Prop
  | lockBuf {s} (i : ι) (b : β) (ho : s.owner b = none) :
      VirtioStep s { s with owner := update s.owner b (some i) }
  | unlockBuf {s} (i : ι) (b : β) (ho : s.owner b = some i) (h : s.pc i = .out) :
      VirtioStep s { s with owner := update s.owner b none }
  | call {s} (i : ι) (b : β) (write : Bool) (blockno : BitVec 32) (h : s.pc i = .out)
      (ho : s.owner b = some i) :
      VirtioStep s (s.goto i (.entering ⟨b, write, sectorOf blockno⟩))
  | enter {s} (i : ι) {a : RwArgs β} (h : s.pc i = .entering a) (hl : s.lock = none) :
      VirtioStep s ((s.acquire i).goto i (.allocating a))
  | alloc {s} (i : ι) {a : RwArgs β} (h : s.pc i = .allocating a) :
      VirtioStep s (s.settle (s.rwAlloc i a))
  | realloc {s} (i : ι) {a : RwArgs β} (h : s.pc i = .allocWoken a) (hl : s.lock = none) :
      VirtioStep s ((s.acquire i).goto i (.allocating a))
  | wait {s} (i : ι) {b : β} {c : Chain} (h : s.pc i = .waiting b c) (hf : s.flag b = true) :
      VirtioStep s (s.release.goto i (.waitAsleep b c))
  | rewait {s} (i : ι) {b : β} {c : Chain} (h : s.pc i = .waitWoken b c) (hl : s.lock = none) :
      VirtioStep s ((s.acquire i).goto i (.waiting b c))
  | finish {s} (i : ι) {b : β} {c : Chain} (h : s.pc i = .waiting b c) (hf : s.flag b = false) :
      VirtioStep s (s.settle (s.rwFinish i c))
  | kill {s} (i : ι) : VirtioStep s (s.goto i (s.pc i).rouse)
  | intrEnter {s} (hl : s.lock = none) : VirtioStep s { s with lock := some .intr }
  | intrRound {s} (hl : s.lock = some .intr) (hu : s.disk.usedIdx ≠ s.disk.usedRingIdx) :
      VirtioStep s (s.settle s.intrRound)
  | intrLeave {s} (hl : s.lock = some .intr) (hu : s.disk.usedIdx = s.disk.usedRingIdx) :
      VirtioStep s s.release
  | fetch {s} (ha : s.seen ≠ s.disk.availIdx) : VirtioStep s s.fetch
  | serve {s} (h : Nat) (hw : h ∈ s.working) : VirtioStep s (s.serve h)

/-- The states of the runs from boot. -/
def VirtioReachable {ι β : Type} [DecidableEq ι] [DecidableEq β] (s : VirtioSystem ι β) : Prop :=
  Relation.ReflTransGen VirtioStep .init s

end Xv6Paging

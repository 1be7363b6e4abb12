import Mathlib.Data.Fintype.Basic
import Xv6Paging.Fs.Bio

/-!
# Processes that use the buffer cache

Any processes read blocks, modify them under the buffer's lock and log them, write buffers and
release them, while one of them commits.  A step is a critical section of `bcache.lock`, of
`log.lock` or of a sleep lock, or an access to a buffer whose lock the process holds.

The committer runs the text of `write_log`, `write_head` and `install_trans`; `Pos` is its place in
it.  The other processes call what they like.
-/

namespace Xv6Paging

open StateHalt LinkedRing

/-! ## The program of `commit` -/

/-- The places in a round of `write_log`. -/
inductive WriteAt
  | readLog | readHome | copy | write | dropHome | dropLog
deriving DecidableEq

/-- The places in a round of `install_trans`. -/
inductive InstallAt
  | readLog | readHome | copy | write | unpin | dropLog | dropHome
deriving DecidableEq

/-- The places in `write_head`. -/
inductive HeadAt
  | read | store | write | drop
deriving DecidableEq

/-- A place in `commit`: in a loop with its counter `tail`, in `write_head`, or at the end of
a function. -/
inductive Pos
  | writeLog (tail : Nat) (place : WriteAt)
  | head (place : HeadAt)
  | install (tail : Nat) (place : InstallAt)
  | done
deriving DecidableEq

/-- A call or an assignment of `commit`.  Its buffers are named by their blocks: `to` is the buffer
that `bread(log.dev, log.start+tail+1)` has returned, and so on. -/
inductive Call
  | bread (b : Nat)
  | copy (dst src : Nat)
  | install (dst src : Nat)
  | store
  | bwrite (b : Nat)
  | unpin (b : Nat)
  | brelse (b : Nat)
deriving DecidableEq

/-- What is to be done at a place; nothing at the end of a function. -/
def Pos.call (A : LogArea) (lh : List Nat) : Pos → Option Call
  | .writeLog t .readLog => if t < lh.length then some (.bread (A.start + t + 1)) else none
  | .writeLog t .readHome => some (.bread (lh.getD t 0))
  | .writeLog t .copy => some (.copy (A.start + t + 1) (lh.getD t 0))
  | .writeLog t .write => some (.bwrite (A.start + t + 1))
  | .writeLog t .dropHome => some (.brelse (lh.getD t 0))
  | .writeLog t .dropLog => some (.brelse (A.start + t + 1))
  | .head .read => some (.bread A.start)
  | .head .store => some .store
  | .head .write => some (.bwrite A.start)
  | .head .drop => some (.brelse A.start)
  | .install t .readLog => if t < lh.length then some (.bread (A.start + t + 1)) else none
  | .install t .readHome => some (.bread (lh.getD t 0))
  | .install t .copy => some (.install (lh.getD t 0) (A.start + t + 1))
  | .install t .write => some (.bwrite (lh.getD t 0))
  | .install t .unpin => some (.unpin (lh.getD t 0))
  | .install t .dropLog => some (.brelse (A.start + t + 1))
  | .install t .dropHome => some (.brelse (lh.getD t 0))
  | .done => none

/-- The place after that. -/
def Pos.next : Pos → Pos
  | .writeLog t .readLog => .writeLog t .readHome
  | .writeLog t .readHome => .writeLog t .copy
  | .writeLog t .copy => .writeLog t .write
  | .writeLog t .write => .writeLog t .dropHome
  | .writeLog t .dropHome => .writeLog t .dropLog
  | .writeLog t .dropLog => .writeLog (t + 1) .readLog
  | .head .read => .head .store
  | .head .store => .head .write
  | .head .write => .head .drop
  | .head .drop => .done
  | .install t .readLog => .install t .readHome
  | .install t .readHome => .install t .copy
  | .install t .copy => .install t .write
  | .install t .write => .install t .unpin
  | .install t .unpin => .install t .dropLog
  | .install t .dropLog => .install t .dropHome
  | .install t .dropHome => .install (t + 1) .readLog
  | .done => .done

/-- The first place of the function that a stage of `commit` calls. -/
def Pos.entry : Pc → Pos
  | .commit .writeLog => .writeLog 0 .readLog
  | .commit .writeHead => .head .read
  | .commit .install => .install 0 .readLog
  | .commit .eraseHead => .head .read
  | _ => .done

/-! ## The system -/

/-- What a process is doing in `bread` or `brelse`: waiting for the lock of a buffer of block `b`,
reading it, or about to drop its reference. -/
inductive Busy
  | idle
  | acquiring (k : Fin nbuf) (b : Nat)
  | filling (k : Fin nbuf) (b : Nat)
  | releasing (k : Fin nbuf)
deriving DecidableEq

/-- The place of a process, the buffers that `bread` has given it, and those of them that it has
modified and neither logged nor written yet. -/
structure Local where
  busy : Busy
  holds : Finset (Fin nbuf)
  dirty : Finset (Fin nbuf)
  pos : Pos

/-- The system.  `pins` are the blocks whose buffers the log has pinned, and `mods` the
modifications that were logged or written, the latest first. -/
structure CacheSystem (ι : Type) where
  group : System ι
  bc : Bcache ι
  disk : Nat → Block
  loc : ι → Local
  pins : Finset Nat
  mods : List (Nat × Block)

namespace CacheSystem

variable {ι : Type} [DecidableEq ι]

/-- After `binit`, with the given disk. -/
def init (disk : Nat → Block) : CacheSystem ι where
  group := System.init
  bc := binit .zero
  disk := disk
  loc := fun _ => ⟨.idle, ∅, ∅, .done⟩
  pins := ∅
  mods := []

/-- The contents of the latest modification of the block `b` that was logged or written, or what
the disk had at the start. -/
def latest (disk₀ : Nat → Block) (s : CacheSystem ι) (b : Nat) : Block :=
  ((s.mods.find? fun m => m.1 == b).map Prod.snd).getD (disk₀ b)

def setLoc (s : CacheSystem ι) (i : ι) (l : Local) : CacheSystem ι :=
  { s with loc := Function.update s.loc i l }

/-- The modification of the buffer `k` counts from now on. -/
def record (s : CacheSystem ι) (k : Fin nbuf) : CacheSystem ι :=
  { s with mods := ((s.bc.buf k).blockno, (s.bc.buf k).data) :: s.mods }

/-- The process `i` may issue the call: the committer what its program says, the others what
they like. -/
def May (A : LogArea) (s : CacheSystem ι) (i : ι) (c : Call) : Prop :=
  match s.group.pc i with
  | .commit _ => (s.loc i).pos.call A s.group.log.lh = some c
  | _ => True

/-- The process `i` is not in `commit`. -/
def Outside (s : CacheSystem ι) (i : ι) : Prop := ∀ stage, s.group.pc i ≠ .commit stage

/-- The critical section of `bget`. -/
def lookup (s : CacheSystem ι) (i : ι) (b : Nat) (k : Fin nbuf) (bc : Bcache ι) : CacheSystem ι :=
  { s with bc := bc }.setLoc i { s.loc i with busy := .acquiring k b }

/-- The buffer's lock is acquired. -/
def acquire (s : CacheSystem ι) (i : ι) (k : Fin nbuf) (b : Nat) : CacheSystem ι :=
  { s with bc := s.bc.lock k i }.setLoc i { s.loc i with busy := .filling k b }

/-- `bread` returns. -/
def fill (s : CacheSystem ι) (i : ι) (k : Fin nbuf) : CacheSystem ι :=
  { s with bc := s.bc.fill s.disk k }.setLoc i
    { s.loc i with
      busy := .idle
      holds := insert k (s.loc i).holds
      pos := (s.loc i).pos.next }

/-- The contents of a buffer change, and the change is to be logged or written. -/
def modifyBuf (s : CacheSystem ι) (i : ι) (k : Fin nbuf) (x : Block) : CacheSystem ι :=
  { s with bc := s.bc.store k x }.setLoc i
    { s.loc i with dirty := insert k (s.loc i).dirty, pos := (s.loc i).pos.next }

/-- The contents of a log block are installed in the buffer of the home block. -/
def installBuf (s : CacheSystem ι) (i : ι) (k : Fin nbuf) (x : Block) : CacheSystem ι :=
  { s with bc := s.bc.store k x }.setLoc i { s.loc i with pos := (s.loc i).pos.next }

/-- `bwrite`. -/
def bwriteBuf (s : CacheSystem ι) (i : ι) (k : Fin nbuf) : CacheSystem ι :=
  let t := if k ∈ (s.loc i).dirty then s.record k else s
  { t with disk := Function.update s.disk (s.bc.buf k).blockno (s.bc.buf k).data }.setLoc i
    { s.loc i with dirty := (s.loc i).dirty.erase k, pos := (s.loc i).pos.next }

/-- `log_write`: a block that is new in the header is pinned. -/
def logWriteBuf (s : CacheSystem ι) (i : ι) (k : Fin nbuf) (log : GroupLog) : CacheSystem ι :=
  let b := (s.bc.buf k).blockno
  { s.record k with
    group := System.record { s.group with log := log } i b
    bc := if b ∈ s.group.log.lh then s.bc else s.bc.bpin k
    pins := insert b s.pins }.setLoc i
    { s.loc i with dirty := (s.loc i).dirty.erase k }

/-- `bunpin` in `install_trans`. -/
def unpinBuf (s : CacheSystem ι) (i : ι) (k : Fin nbuf) : CacheSystem ι :=
  { s with bc := s.bc.bunpin k, pins := s.pins.erase (s.bc.buf k).blockno }.setLoc i
    { s.loc i with pos := (s.loc i).pos.next }

/-- The first half of `brelse`. -/
def release (s : CacheSystem ι) (i : ι) (k : Fin nbuf) : CacheSystem ι :=
  { s with bc := s.bc.unlock k }.setLoc i
    { s.loc i with busy := .releasing k, holds := (s.loc i).holds.erase k }

/-- The second half of `brelse`. -/
def drop (s : CacheSystem ι) (i : ι) (k : Fin nbuf) : CacheSystem ι :=
  { s with bc := s.bc.brelseDrop k }.setLoc i
    { s.loc i with busy := .idle, pos := (s.loc i).pos.next }

/-- A step of the logging protocol; a process that enters a stage of `commit` starts its
function. -/
def protocol (s : CacheSystem ι) (g : System ι) : CacheSystem ι :=
  { s with
    group := g
    loc := fun j => if g.pc j = s.group.pc j then s.loc j
      else { s.loc j with pos := Pos.entry (g.pc j) } }

end CacheSystem

open CacheSystem in
/-- The steps of the processes.  Modified blocks are logged or written before their buffer is
released; blocks of the log are not logged; and while a commit runs, only the committer writes
modifications of the blocks that it is about to install, or of the log. -/
inductive CacheStep {ι : Type} [DecidableEq ι] (A : LogArea) :
    CacheSystem ι → CacheSystem ι → Prop
  | protocol {s} {g : System ι} (h : Step A.size (fun _ => True) s.group g)
      (hw : g.hist.writes = s.group.hist.writes)
      (hcall : ∀ j, s.group.pc j = .inside → g.pc j ≠ .inside → (s.loc j).busy = .idle)
      (hend : ∀ j stage, s.group.pc j = .commit stage → g.pc j ≠ s.group.pc j →
        (s.loc j).busy = .idle ∧ (s.loc j).pos.call A s.group.log.lh = none) :
      CacheStep A s (s.protocol g)
  | lookup {s} (i : ι) {b : Nat} {k : Fin nbuf} {bc : Bcache ι} (hidle : (s.loc i).busy = .idle)
      (hmay : s.May A i (.bread b)) (hr : bgetSlot rootdev b s.bc = .ok k bc) :
      CacheStep A s (s.lookup i b k bc)
  | acquire {s} (i : ι) {k : Fin nbuf} {b : Nat} (h : (s.loc i).busy = .acquiring k b)
      (hfree : (s.bc.buf k).owner = none) : CacheStep A s (s.acquire i k b)
  | fill {s} (i : ι) {k : Fin nbuf} {b : Nat} (h : (s.loc i).busy = .filling k b) :
      CacheStep A s (s.fill i k)
  | modify {s} (i : ι) (k : Fin nbuf) (x : Block) (hidle : (s.loc i).busy = .idle)
      (hout : s.Outside i) (hown : (s.bc.buf k).owner = some i) : CacheStep A s (s.modifyBuf i k x)
  | copy {s} (i : ι) (k k' : Fin nbuf) (hidle : (s.loc i).busy = .idle)
      (hin : ¬s.Outside i) (hk : k ∈ (s.loc i).holds) (hk' : k' ∈ (s.loc i).holds)
      (hmay : s.May A i (.copy (s.bc.buf k).blockno (s.bc.buf k').blockno)) :
      CacheStep A s (s.modifyBuf i k (s.bc.buf k').data)
  | install {s} (i : ι) (k k' : Fin nbuf) (hidle : (s.loc i).busy = .idle)
      (hin : ¬s.Outside i) (hk : k ∈ (s.loc i).holds) (hk' : k' ∈ (s.loc i).holds)
      (hmay : s.May A i (.install (s.bc.buf k).blockno (s.bc.buf k').blockno)) :
      CacheStep A s (s.installBuf i k (s.bc.buf k').data)
  | store {s} (i : ι) (k : Fin nbuf) (hidle : (s.loc i).busy = .idle) (hin : ¬s.Outside i)
      (hk : k ∈ (s.loc i).holds) (hb : (s.bc.buf k).blockno = A.start) (hmay : s.May A i .store) :
      CacheStep A s (s.modifyBuf i k (storeHead
        ⟨s.group.log.lh.length, fun j => BitVec.ofNat 32 (s.group.log.lh.getD j 0)⟩
        (s.bc.buf k).data))
  | bwrite {s} (i : ι) (k : Fin nbuf) (hidle : (s.loc i).busy = .idle)
      (hown : (s.bc.buf k).owner = some i) (hmay : s.May A i (.bwrite (s.bc.buf k).blockno))
      (hdirty : k ∈ (s.loc i).dirty → s.Outside i → s.group.log.committing = true →
        (s.bc.buf k).blockno ∉ s.group.log.lh ∧ ¬A.Contains (s.bc.buf k).blockno) :
      CacheStep A s (s.bwriteBuf i k)
  | logWrite {s} (i : ι) (k : Fin nbuf) {log : GroupLog} (hidle : (s.loc i).busy = .idle)
      (hin : s.group.pc i = .inside) (hown : (s.bc.buf k).owner = some i)
      (hhome : ¬A.Contains (s.bc.buf k).blockno)
      (hr : Xv6Paging.logWrite A.size (s.bc.buf k).blockno s.group.log = .ok () log) :
      CacheStep A s (s.logWriteBuf i k log)
  | unpin {s} (i : ι) (k : Fin nbuf) (hidle : (s.loc i).busy = .idle) (hin : ¬s.Outside i)
      (hk : k ∈ (s.loc i).holds) (hmay : s.May A i (.unpin (s.bc.buf k).blockno)) :
      CacheStep A s (s.unpinBuf i k)
  | release {s} (i : ι) (k : Fin nbuf) (hidle : (s.loc i).busy = .idle)
      (hown : (s.bc.buf k).owner = some i) (hclean : k ∉ (s.loc i).dirty)
      (hmay : s.May A i (.brelse (s.bc.buf k).blockno)) : CacheStep A s (s.release i k)
  | drop {s} (i : ι) {k : Fin nbuf} (h : (s.loc i).busy = .releasing k) :
      CacheStep A s (s.drop i k)

/-- The states of the runs from a disk with the contents `disk₀`. -/
def CacheReachable {ι : Type} [DecidableEq ι] (A : LogArea) (disk₀ : Nat → Block) :
    CacheSystem ι → Prop := Relation.ReflTransGen (CacheStep A) (CacheSystem.init disk₀)

end Xv6Paging

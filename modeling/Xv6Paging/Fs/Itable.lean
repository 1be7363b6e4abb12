import Mathlib.Algebra.Order.Ring.Int
import Mathlib.Data.BitVec
import Mathlib.Data.List.FinRange
import Mathlib.Logic.Relation

/-!
# The table of inodes in memory

`iget`, `idup` and the last part of `iput` are sections under `itable.lock`; `ilock`, `iunlock` and
the part of `iput` that frees an inode hold the entry's own sleep lock, and read and write the inode
in its block as sections under the lock of the buffer.  In between, other processes go on: a free
inode on the disk may be allocated again while the `iput` that freed it has not cleared `valid` yet.

A reference is an item of a list, with the process that has it.  Processes call `idup`, `ilock` and
`iput` for entries to which they have a reference, keep one to an entry that they have locked, and
call `iupdate` after a change and before `iunlock`.  What they change is left open, but
for the type, which no function assigns outside of `ilock` and `iput`: it stays non-zero.
-/

namespace Xv6Paging

/-- The fields of an inode that are on the disk: `struct dinode`. -/
structure Dinode where
  type : BitVec 16
  major : BitVec 16
  minor : BitVec 16
  nlink : BitVec 16
  size : BitVec 32
  addrs : Fin 13 → BitVec 32

instance neZero_addrs : NeZero 13 := ⟨by decide⟩

/-- `memset(dip, 0, sizeof(*dip))`. -/
def Dinode.zero : Dinode := ⟨0, 0, 0, 0, 0, fun _ => 0⟩

/-- What `itrunc` leaves. -/
def Dinode.truncate (d : Dinode) : Dinode := { d with size := 0, addrs := fun _ => 0 }

/-- A device and an inode number. -/
structure InodeId where
  dev : BitVec 32
  inum : BitVec 32
deriving DecidableEq

/-- The sleep lock of an entry, with what its owner is doing. -/
inductive InodeLock (ι : Type)
  | free
  /-- `ilock` has not read the inode yet. -/
  | loading (i : ι)
  /-- The inode is locked; it has been changed since the last `iupdate`, or not. -/
  | held (i : ι) (dirty : Bool)
  /-- `iput` frees the inode: before `itrunc`, before the type is 0, and after. -/
  | freeing (i : ι)
  | truncated (i : ι)
  | erased (i : ι)

namespace InodeLock

variable {ι : Type}

/-- The process that has the lock. -/
def owner : InodeLock ι → Option ι
  | free => none
  | loading i | held i _ | freeing i | truncated i | erased i => some i

/-- The fields are those on the disk, if they are valid. -/
def Clean : InodeLock ι → Prop
  | held _ dirty => dirty = false
  | erased _ => False
  | _ => True

/-- The inode has not been freed. -/
def Alive : InodeLock ι → Prop
  | erased _ => False
  | _ => True

end InodeLock

/-- `struct inode`: an entry of the table. -/
structure InodeEntry (ι : Type) where
  id : InodeId
  ref : Nat
  lock : InodeLock ι
  valid : Bool
  fields : Dinode

/-- The table, the inodes in the buffer cache, the references, and those that an `iput` is about to
drop. -/
structure Itable (ι : Type) (n : Nat) where
  entry : Fin n → InodeEntry ι
  disk : InodeId → Dinode
  refs : List (ι × Fin n)
  dropping : List (ι × Fin n)

namespace Itable

variable {ι : Type} {n : Nat}

/-- The table at boot. -/
def boot (disk : InodeId → Dinode) : Itable ι n where
  entry _ := ⟨⟨0, 0⟩, 0, .free, false, .zero⟩
  disk := disk
  refs := []
  dropping := []

/-- An entry gets other contents. -/
def put (s : Itable ι n) (e : Fin n) (x : InodeEntry ι) : Itable ι n :=
  { s with entry := Function.update s.entry e x }

/-- The sleep lock of an entry. -/
def setLock (s : Itable ι n) (e : Fin n) (l : InodeLock ι) : Itable ι n :=
  s.put e { s.entry e with lock := l }

/-- The inode in its block. -/
def writeInode (s : Itable ι n) (id : InodeId) (d : Dinode) : Itable ι n :=
  { s with disk := Function.update s.disk id d }

/-- `iupdate`: the fields of an entry are copied to the disk. -/
def iupdate (s : Itable ι n) (e : Fin n) : Itable ι n :=
  s.writeInode (s.entry e).id (s.entry e).fields

/-- The entry of an inode that is in the table. -/
def find (s : Itable ι n) (id : InodeId) : Option (Fin n) :=
  (List.finRange n).find? fun e => 0 < (s.entry e).ref ∧ (s.entry e).id = id

/-- The first empty entry. -/
def empty (s : Itable ι n) : Option (Fin n) :=
  (List.finRange n).find? fun e => (s.entry e).ref = 0

/-- `ip->ref++`, for a reference of the process `i`. -/
def addRef (s : Itable ι n) (i : ι) (e : Fin n) : Itable ι n :=
  { s.put e { s.entry e with ref := (s.entry e).ref + 1 } with refs := (i, e) :: s.refs }

/-- An entry is recycled. -/
def recycle (s : Itable ι n) (i : ι) (e : Fin n) (id : InodeId) : Itable ι n :=
  { s.put e { s.entry e with id := id, ref := 1, valid := false } with refs := (i, e) :: s.refs }

/-- `iget`; it panics if the table is full. -/
def iget (s : Itable ι n) (i : ι) (id : InodeId) : Option (Itable ι n) :=
  match s.find id with
  | some e => some (s.addRef i e)
  | none => s.empty.map fun e => s.recycle i e id

/-- `ilock` has got the lock; it reads the inode if it is not valid. -/
def ilock (s : Itable ι n) (i : ι) (e : Fin n) : Itable ι n :=
  s.setLock e (if (s.entry e).valid then .held i false else .loading i)

/-- `ilock` reads the inode. -/
def load (s : Itable ι n) (i : ι) (e : Fin n) : Itable ι n :=
  s.put e { s.entry e with
    lock := .held i false, valid := true, fields := s.disk (s.entry e).id }

/-- A process changes the inode that it has locked. -/
def modify (s : Itable ι n) (i : ι) (e : Fin n) (d : Dinode) : Itable ι n :=
  s.put e { s.entry e with lock := .held i true, fields := d }

/-- The condition under which `iput` frees the inode. -/
def LastRef (s : Itable ι n) (e : Fin n) : Prop :=
  (s.entry e).ref = 1 ∧ (s.entry e).valid = true ∧ (s.entry e).fields.nlink = 0

/-- `itrunc`, with its `iupdate`. -/
def itrunc (s : Itable ι n) (i : ι) (e : Fin n) : Itable ι n :=
  (s.put e { s.entry e with
    lock := .truncated i, fields := (s.entry e).fields.truncate }).iupdate e

/-- `ip->type = 0` and `iupdate`. -/
def erase (s : Itable ι n) (i : ι) (e : Fin n) : Itable ι n :=
  (s.put e { s.entry e with
    lock := .erased i, fields := { (s.entry e).fields with type := 0 } }).iupdate e

variable [DecidableEq ι]

/-- `ip->valid = 0` and `releasesleep`; the reference is still to be dropped. -/
def invalidate (s : Itable ι n) (i : ι) (e : Fin n) : Itable ι n :=
  { s.put e { s.entry e with lock := .free, valid := false } with
    refs := s.refs.erase (i, e), dropping := (i, e) :: s.dropping }

/-- `ip->ref--`, for a reference that is given up. -/
def decRef (s : Itable ι n) (e : Fin n) : Itable ι n :=
  s.put e { s.entry e with ref := (s.entry e).ref - 1 }

end Itable

open Itable in
/-- The steps of the processes. -/
inductive ItableStep {ι : Type} [DecidableEq ι] {n : Nat} : Itable ι n → Itable ι n → Prop
  | iget {s t} (i : ι) (id : InodeId) (h : s.iget i id = some t) : ItableStep s t
  | idup {s} (i : ι) (e : Fin n) (h : (i, e) ∈ s.refs) : ItableStep s (s.addRef i e)
  -- a process gives a reference to another one
  | pass {s} (i j : ι) (e : Fin n) (h : (i, e) ∈ s.refs)
      (hl : (s.entry e).lock.owner = some i → (i, e) ∈ s.refs.erase (i, e)) :
      ItableStep s { s with refs := (j, e) :: s.refs.erase (i, e) }
  | ilock {s} (i : ι) (e : Fin n) (h : (i, e) ∈ s.refs) (hl : (s.entry e).lock = .free) :
      ItableStep s (s.ilock i e)
  -- `ilock` panics if the inode is free
  | load {s} (i : ι) (e : Fin n) (hl : (s.entry e).lock = .loading i)
      (ht : (s.disk (s.entry e).id).type ≠ 0) : ItableStep s (s.load i e)
  | modify {s} (i : ι) (e : Fin n) (d : Dinode) {dirty : Bool}
      (hl : (s.entry e).lock = .held i dirty) (ht : d.type ≠ 0) : ItableStep s (s.modify i e d)
  | iupdate {s} (i : ι) (e : Fin n) {dirty : Bool} (hl : (s.entry e).lock = .held i dirty) :
      ItableStep s ((s.iupdate e).setLock e (.held i false))
  | iunlock {s} (i : ι) (e : Fin n) (hl : (s.entry e).lock = .held i false) :
      ItableStep s (s.setLock e .free)
  -- `ialloc` finds a free inode; its `iget` is another step
  | ialloc {s} (id : InodeId) (type : BitVec 16) (h : (s.disk id).type = 0) :
      ItableStep s (s.writeInode id { Dinode.zero with type := type })
  | iput {s} (i : ι) (e : Fin n) (h : (i, e) ∈ s.refs)
      (hl : (s.entry e).lock.owner = some i → (i, e) ∈ s.refs.erase (i, e)) (hn : ¬s.LastRef e) :
      ItableStep s { s.decRef e with refs := s.refs.erase (i, e) }
  | iputFree {s} (i : ι) (e : Fin n) (h : (i, e) ∈ s.refs) (hl : (s.entry e).lock = .free)
      (hn : s.LastRef e) : ItableStep s (s.setLock e (.freeing i))
  | itrunc {s} (i : ι) (e : Fin n) (hl : (s.entry e).lock = .freeing i) :
      ItableStep s (s.itrunc i e)
  | erase {s} (i : ι) (e : Fin n) (hl : (s.entry e).lock = .truncated i) :
      ItableStep s (s.erase i e)
  | invalidate {s} (i : ι) (e : Fin n) (hl : (s.entry e).lock = .erased i) :
      ItableStep s (s.invalidate i e)
  | iputEnd {s} (i : ι) (e : Fin n) (h : (i, e) ∈ s.dropping) :
      ItableStep s { s.decRef e with dropping := s.dropping.erase (i, e) }

/-- The states of the runs from boot, with any disk. -/
def ItableReachable {ι : Type} [DecidableEq ι] {n : Nat} (s : Itable ι n) : Prop :=
  ∃ disk, Relation.ReflTransGen ItableStep (.boot disk) s

end Xv6Paging

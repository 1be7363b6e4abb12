import Xv6Paging.Proc.Life

/-!
# exec

`exec.c`: the image is built in a new page table, segment after segment, then the
stack and the arguments; only then is it installed in the process.  The program file is the byte
sequence of its inode; any bytes are accepted and checked as the source checks them.
-/

namespace Xv6Paging

open StateHalt

/-! ## ELF -/

/-- A little-endian number of `n` bytes. -/
def leBytes (data : Nat → UInt8) (off n : Nat) : Nat :=
  (List.range n).foldr (fun k acc => (data (off + k)).toNat + 256 * acc) 0

abbrev elfMagic : Nat := 0x464C457F

abbrev elfProgLoad : Nat := 1

/-- The fields of `struct elfhdr` that `exec` reads. -/
structure ElfHdr where
  magic : Nat
  entry : Nat
  phoff : Nat
  phnum : Nat

/-- The ELF header, if `readi` delivers all of it. -/
def readElf (ip : Inode) : Option ElfHdr :=
  if readiCount ip 0 64 ≠ 64 then none
  else some ⟨leBytes ip.data 0 4, leBytes ip.data 24 8, leBytes ip.data 32 8, leBytes ip.data 56 2⟩

/-- The fields of `struct proghdr` that `exec` reads. -/
structure ProgHdr where
  type : Nat
  off : Nat
  vaddr : Nat
  filesz : Nat
  memsz : Nat

/-- The program header at `off`, if `readi` delivers all of it. -/
def readProgHdr (ip : Inode) (off : Nat) : Option ProgHdr :=
  if readiCount ip off 56 ≠ 56 then none
  else some ⟨leBytes ip.data off 4, leBytes ip.data (off + 8) 8, leBytes ip.data (off + 16) 8,
    leBytes ip.data (off + 32) 8, leBytes ip.data (off + 40) 8⟩

/-! ## Loading -/

/-- One page of `loadseg`. -/
def loadsegRound (pagetable va : Nat) (ip : Inode) (offset sz k : Nat) : KM (Option Int) := do
  let i := k * pgsize
  let pa ← walkaddr pagetable (va + i)
  if pa = 0 then panic "loadseg: address should exist"
  else do
    let n := min (sz - i) pgsize
    let off := (offset + i) % 2 ^ 32
    let r := readiCount ip off n
    onlyIf (r > 0) do
      storePage pa (fillPage (← loadPage pa) r fun j => ip.data (off + j))
    if r ≠ n then pure (some (-1)) else pure none

def loadseg (pagetable va : Nat) (ip : Inode) (offset sz : Nat) : KM Int := do
  if va % pgsize ≠ 0 then panic "loadseg: va must be page aligned"
  else pure ((← forReturn (loadsegRound pagetable va ip offset sz) 0
    ((sz + (pgsize - 1)) / pgsize)).getD 0)

/-- A loadable segment; the flag is false for `goto bad`, and the size is that of the image. -/
def execSegment (B : Build) (pagetable : Nat) (ip : Inode) (ph : ProgHdr) (sz : Nat) :
    KM (Bool × Nat) := do
  if ph.memsz < ph.filesz then pure (false, sz)
  else if (ph.vaddr + ph.memsz) % 2 ^ 64 < ph.vaddr then pure (false, sz)
  else do
    let sz1 ← uvmalloc B pagetable sz (ph.vaddr + ph.memsz)
    if sz1 = 0 then pure (false, sz)
    else if ph.vaddr % pgsize ≠ 0 then pure (false, sz1)
    else if (← loadseg pagetable ph.vaddr ip (ph.off % 2 ^ 32) (ph.filesz % 2 ^ 32)) < 0 then
      pure (false, sz1)
    else pure (true, sz1)

/-- The loop over the program headers from the `i`-th on, `n` of them. -/
def execLoad (B : Build) (pagetable : Nat) (ip : Inode) (phoff : Nat) :
    Nat → Nat → Nat → KM (Bool × Nat)
  | _, 0, sz => pure (true, sz)
  | i, n + 1, sz =>
    match readProgHdr ip ((phoff + i * 56) % 2 ^ 32) with
    | none => pure (false, sz)
    | some ph =>
      if ph.type ≠ elfProgLoad then execLoad B pagetable ip phoff (i + 1) n sz
      else do
        let r ← execSegment B pagetable ip ph sz
        if r.1 then execLoad B pagetable ip phoff (i + 1) n r.2 else pure r

/-! ## Arguments -/

/-- `sp - n` on 64 bits, rounded down to 16. -/
def pushDown (sp n : Nat) : Nat := (sp + 2 ^ 64 - n) % 2 ^ 64 / 16 * 16

/-- The argument strings go on the stack; their addresses are collected in `ustack`. -/
def pushArgs (pagetable stackbase : Nat) :
    List (List UInt8) → Nat → List Nat → KM (Option (Nat × List Nat))
  | [], sp, ustack => pure (some (sp, ustack))
  | arg :: argv, sp, ustack =>
    if ustack.length ≥ 32 then pure none
    else if pushDown sp (arg.length + 1) < stackbase then pure none
    else do
      let r ← copyout pagetable (pushDown sp (arg.length + 1)) (arg ++ [0])
      if r < 0 then pure none
      else
        pushArgs pagetable stackbase argv (pushDown sp (arg.length + 1))
          (ustack ++ [pushDown sp (arg.length + 1)])

/-- The bytes of an array of 64-bit words. -/
def wordBytes (ws : List Nat) : List UInt8 :=
  ws.flatMap fun w => (List.range 8).map fun k => UInt8.ofNat (w / 2 ^ (8 * k))

/-- The stack of the new image: the strings and the array of pointers to them.  `none` when they
do not fit. -/
def execStack (pagetable sz : Nat) (argv : List (List UInt8)) : KM (Option (Nat × Nat)) := do
  match ← pushArgs pagetable (sz - pgsize) argv sz [] with
  | none => pure none
  | some (sp, ustack) =>
    let argc := ustack.length
    if pushDown sp ((argc + 1) * 8) < sz - pgsize then pure none
    else do
      let r ← copyout pagetable (pushDown sp ((argc + 1) * 8)) (wordBytes (ustack ++ [0]))
      if r < 0 then pure none
      else pure (some (argc, pushDown sp ((argc + 1) * 8)))

/-! ## Installing -/

/-- The page `i` of the image is recorded in `p->ram[i]`.  The source does not bound `i`; the
`swap` array follows the `ram` array in `struct proc`, so `p->ram[16 + j]` is `p->swap[j]`. -/
def registerPage (pol : Policy) (pr : Proc) (i : Nat) : Proc :=
  if i < maxPsycPages then admitPage pol pr (Fin.ofNat maxPsycPages i) (i * pgsize)
  else
    let j := Fin.ofNat maxPsycPages (i - maxPsycPages)
    { pr with
      swap := Function.update pr.swap j
        (stampPage pol pr.fifoCounter (pr.swap j) (i * pgsize))
      fifoCounter := tick pol pr.fifoCounter }

/-- One round of the loop that records the pages of the image; the swap file is made anew in every
round.  A page beyond both arrays is not reached: `uvmalloc` panics at 32 pages. -/
def registerRound (B : Build) (pol : Policy) (p : Fin nproc) (i : Nat) : KM Unit := do
  if i ≥ maxTotalPages then kerneltrap
  else do
    modifyProc p fun pr => registerPage pol pr i
    if (← removeSwapFile B p) = -1 then panic "failure when trying to remove swapfile"
    else if (← createSwapFile p) = -1 then panic "failure when trying to create swapfile"
    else pure ()

/-- The bookkeeping of the new image. -/
def execRegister (B : Build) (p : Fin nproc) (sz : Nat) : KM Unit :=
  match B.selection with
  | .none => pure ()
  | .paging pol => do
    onlyIf ((← getProc p).pid > 2) do
      modifyProc p fun pr => { pr with ram := fun _ => .removed, swap := fun _ => .removed }
      forEach (registerRound B pol p) 0 ((sz + (pgsize - 1)) / pgsize)

/-- `safestrcpy(p->name, last, sizeof(p->name))` for the last element of the path. -/
def lastName (path : List UInt8) : List UInt8 :=
  ((path.reverse.takeWhile fun c => c ≠ 47).reverse).take 15

/-- The label `bad` of `exec`, once there is a page table. -/
def execBad (B : Build) (pagetable sz : Nat) : KM Int := do
  procFreepagetable B pagetable sz
  pure (-1)

/-- The end of `exec`: the image is installed and the old one freed. -/
def execCommit (B : Build) (p : Fin nproc) (pagetable sz entry sp : Nat) (path : List UInt8) :
    KM Unit := do
  let oldsz := (← getProc p).sz
  execRegister B p sz
  let oldpagetable := (← getProc p).pagetable
  modifyProc p fun pr => { pr with
    pagetable := pagetable
    sz := sz
    name := lastName path
    frame := Function.update (Function.update (Function.update pr.frame
      tfA1 (BitVec.ofNat 64 sp)) tfEpc (BitVec.ofNat 64 entry)) tfSp (BitVec.ofNat 64 sp) }
  procFreepagetable B oldpagetable oldsz

/-- `exec` from the stack pages on, for an image of size `sz`. -/
def execFinish (B : Build) (p : Fin nproc) (pagetable sz entry : Nat) (path : List UInt8)
    (argv : List (List UInt8)) : KM Int := do
  let sz0 := pgroundup sz
  let sz1 ← uvmalloc B pagetable sz0 (sz0 + 2 * pgsize)
  if sz1 = 0 then execBad B pagetable sz0
  else do
    uvmclear pagetable (sz1 - 2 * pgsize)
    match ← execStack pagetable sz1 argv with
    | none => execBad B pagetable sz1
    | some (argc, sp) => do
      execCommit B p pagetable sz1 entry sp path
      pure argc

/-- `exec`, with the inode that `namei(path)` found. -/
def exec (B : Build) (ip : Option Inode) (path : List UInt8) (argv : List (List UInt8)) :
    KM Int := do
  let p ← myproc
  match ip with
  | none => pure (-1)
  | some ip =>
    match readElf ip with
    | none => pure (-1)
    | some elf =>
      if elf.magic ≠ elfMagic then pure (-1)
      else do
        let pagetable ← procPagetable B (← getProc p).trapframe
        if pagetable = 0 then pure (-1)
        else do
          let r ← execLoad B pagetable ip elf.phoff 0 elf.phnum 0
          if r.1 then execFinish B p pagetable r.2 elf.entry path argv
          else execBad B pagetable r.2

end Xv6Paging

import Xv6Paging.Proc.Exec

/-!
# Page faults

The handlers that `usertrap` calls when a process touches a page that is not mapped.
-/

namespace Xv6Paging

open StateHalt

/-- `p->killed = 1`. -/
def kill (p : Fin nproc) : KM Unit := modifyProc p fun pr => { pr with killed := true }

/-- The process `p` is marked for death. -/
def Kernel.markKilled (s : Kernel) (p : Fin nproc) : Kernel :=
  s.setProc p { s.proc p with killed := true }

def handleNone (B : Build) (stval : Nat) : KM Unit := do
  let va := pgrounddown stval
  let p ← myproc
  if va > maxva then exit B (-1)
  else
    let pagetable := (← getProc p).pagetable
    match ← walk pagetable va false with
    | none => kill p
    | some pte =>
      if hasFlag (← readPte pte) pteV && (← walkaddr pagetable va) == 0 then do
        if (← uvmalloc B pagetable va (va + pgsize)) = 0 then panic "uvmalloc failure"
        else pure ()
      else kill p

def handleNotNone (B : Build) (pol : Policy) (stval : Nat) : KM Unit := do
  let va := pgrounddown stval
  let p ← myproc
  match ← walk (← getProc p).pagetable va false with
  | none => kill p
  | some pte => if hasFlag (← readPte pte) ptePG then swap B pol va pte else kill p

def handlePageFault (B : Build) (stval : Nat) : KM Unit :=
  match B.selection with
  | .none => handleNone B stval
  | .paging pol => handleNotNone B pol stval

end Xv6Paging

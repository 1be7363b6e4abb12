import Mathlib.Data.Fintype.Card
import Xv6Paging.Proc.Life

/-!
# Exiting without a panic

`exit` of the lazy kernel comes to its end if the reference counts of the open files cover the
descriptors of the process and the pipes are in pages that can be freed.
-/

namespace Xv6Paging

open StateHalt
open Finset (mem_filter mem_univ)

/-- The descriptors of `p` from `fd` on that refer to the file `f`. -/
def Proc.fdsFrom (pr : Proc) (fd : Nat) (f : Fin nfile) : Finset (Fin nofile) :=
  Finset.univ.filter fun i => fd ≤ i.val ∧ pr.ofile i = some f

/-- Every file has at least as many references as the process `p` has descriptors for it, and every
pipe is in a page of the allocator. -/
structure OpenFiles (B : Build) (p : Fin nproc) (s : Kernel) : Prop where
  refs : ∀ f, ((s.proc p).fdsFrom 0 f).card ≤ (s.ftable f).ref
  pipes : ∀ f, (s.ftable f).type = .pipe → IsFrame B (s.ftable f).pipe

section Close

variable {B : Build} {s : Kernel} {p : Fin nproc} {f : Fin nfile}

/-- The file `f` has one reference less, and the other files are as they were. -/
structure Closed (f : Fin nfile) (s s' : Kernel) : Prop where
  op : FileOp s s'
  other : ∀ g, g ≠ f → s'.ftable g = s.ftable g
  ref : (s.ftable f).ref = (s'.ftable f).ref + 1
  pipe : (s'.ftable f).type = .pipe → (s.ftable f).type = .pipe ∧
    (s'.ftable f).pipe = (s.ftable f).pipe

/-- **`fileclose`** of a file that is open. -/
theorem fileclose_closed (href : 1 ≤ (s.ftable f).ref)
    (hpipe : (s.ftable f).type = .pipe → IsFrame B (s.ftable f).pipe) :
    wp (fileclose B f) (fun _ s' => Closed f s s') (fun _ _ => False) s := by
  simp only [fileclose, wp_bind, wp_get]
  rw [if_neg (by omega)]
  refine wp_ite (fun hmore => ?_) fun hlast => ?_
  · -- other references remain
    refine ⟨rfl, fun g hg => by simp [Kernel.setFile, hg], ?_, fun h => ?_⟩
    · simp only [Kernel.setFile, Function.update_self]
      omega
    · simp only [Kernel.setFile, Function.update_self] at h ⊢
      exact ⟨h, trivial⟩
  rw [wp_bind, wp_modify]
  generalize ht : s.setFile f { s.ftable f with ref := 0, type := .none } = t
  have hclosed : Closed f s t := by
    subst ht
    refine ⟨rfl, fun g hg => by simp [Kernel.setFile, hg], ?_, fun h => ?_⟩
    · simp only [Kernel.setFile, Function.update_self]
      omega
    · simp [Kernel.setFile] at h
  -- what follows does not touch the file table
  have hrest : ∀ u, FileOp t u → u.ftable = t.ftable → Closed f s u := fun u hu heq =>
    ⟨hclosed.op.trans hu, by rw [heq]; exact hclosed.other, by rw [heq]; exact hclosed.ref,
      by rw [heq]; exact hclosed.pipe⟩
  cases htype : (s.ftable f).type with
  | none => exact hclosed
  | inode => exact hrest _ rfl rfl
  | device => exact hrest _ rfl rfl
  | pipe =>
    simp only [pipeclose, wp_bind, wp_modify, wp_get]
    refine wp_onlyIf (fun _ => ?_) fun _ => hrest _ rfl rfl
    rw [wp_kfree_frame (hpipe htype)]
    exact hrest _ rfl rfl

end Close

section Fds

variable {pr : Proc} {fd : Nat} {f : Fin nfile}

theorem Proc.fdsFrom_succ_le : (pr.fdsFrom (fd + 1) f).card ≤ (pr.fdsFrom fd f).card := by
  refine Finset.card_le_card fun i hi => ?_
  simp only [Proc.fdsFrom, mem_filter, mem_univ, true_and] at hi ⊢
  exact ⟨by omega, hi.2⟩

theorem Proc.fdsFrom_succ_lt {i : Fin nofile} (hi : i.val = fd) (hf : pr.ofile i = some f) :
    (pr.fdsFrom (fd + 1) f).card < (pr.fdsFrom fd f).card := by
  refine Finset.card_lt_card ⟨fun j hj => ?_, fun hsub => ?_⟩
  · simp only [Proc.fdsFrom, mem_filter, mem_univ, true_and] at hj ⊢
    exact ⟨by omega, hj.2⟩
  · have hmem : i ∈ pr.fdsFrom fd f := by
      simp only [Proc.fdsFrom, mem_filter, mem_univ, true_and]
      exact ⟨by omega, hf⟩
    have hno := hsub hmem
    simp only [Proc.fdsFrom, mem_filter, mem_univ, true_and] at hno
    omega

end Fds

section Exit

variable {α : Type} {B : Build} {s : Kernel} {p : Fin nproc}

/-- The state of `exit` when the descriptors below `fd` are closed. -/
structure Closing (B : Build) (p : Fin nproc) (s : Kernel) (fd : Nat) (t : Kernel) : Prop where
  keeps : KeepsMemory s t
  ofile : ∀ i : Fin nofile, fd ≤ i.val → (t.proc p).ofile i = (s.proc p).ofile i
  refs : ∀ f, ((s.proc p).fdsFrom fd f).card ≤ (t.ftable f).ref
  pipes : ∀ f, (t.ftable f).type = .pipe → IsFrame B (t.ftable f).pipe

theorem exitFileRound_closing {fd : Nat} {t : Kernel} (hfd : fd < nofile)
    (ht : Closing B p s fd t) :
    wp (exitFileRound B p fd) (fun _ u => Closing B p s (fd + 1) u) (fun _ _ => False) t := by
  have hval : (Fin.ofNat nofile fd).val = fd := Nat.mod_eq_of_lt hfd
  have hofile := ht.ofile (Fin.ofNat nofile fd) (Nat.le_of_eq hval.symm)
  simp only [exitFileRound, wp_bind, wp_getProc]
  cases hf : (t.proc p).ofile (Fin.ofNat nofile fd) with
  | none =>
    exact ⟨ht.keeps, fun i hi => ht.ofile i (by omega),
      fun f => Nat.le_trans Proc.fdsFrom_succ_le (ht.refs f), ht.pipes⟩
  | some f =>
    have hlt := Proc.fdsFrom_succ_lt hval (hofile.symm.trans hf)
    have hrefs := ht.refs f
    simp only [wp_bind]
    refine wp_mono (fileclose_closed (B := B) (by omega) (ht.pipes f)) ?_ fun _ _ h => h.elim
    intro _ u hu
    have hup : u.proc = t.proc := hu.op.proc_eq
    refine ⟨(ht.keeps.trans (.ofFileOp hu.op)).setProc rfl rfl rfl, fun i hi => ?_, fun g => ?_,
      fun g hg => ?_⟩
    · have hne : i ≠ Fin.ofNat nofile fd := fun h => by
        rw [h, hval] at hi
        omega
      rw [Kernel.setProc_self]
      show Function.update (u.proc p).ofile _ none i = _
      rw [Function.update_of_ne hne, hup, ht.ofile i (by omega)]
    · show _ ≤ (u.ftable g).ref
      by_cases hg : g = f
      · subst hg
        have := hu.ref
        omega
      · rw [hu.other g hg]
        exact Nat.le_trans Proc.fdsFrom_succ_le (ht.refs g)
    · change (u.ftable g).type = .pipe at hg
      show IsFrame B (u.ftable g).pipe
      by_cases hgf : g = f
      · subst hgf
        obtain ⟨htype, hpipe⟩ := hu.pipe hg
        rw [hpipe]
        exact ht.pipes g htype
      · rw [hu.other g hgf] at hg ⊢
        exact ht.pipes g hg

/-- **`exit` of the lazy kernel comes to its end.** -/
theorem exit_exits (hB : B.selection = .none) (hc : s.cur = some p) (hinit : s.initproc ≠ some p)
    (hfiles : OpenFiles B p s) {status : Int} :
    wp (exit B status : KM α) (fun _ _ => False) (fun e s' => e = .exited ∧ Exits p s s') s := by
  simp only [exit, wp_bind, wp_myproc hc, wp_get]
  rw [if_neg hinit]
  simp only [exitSwapFile, hB, wp_bind, wp_pure]
  have loop : wp (forEach (exitFileRound B p) 0 nofile) (fun _ u => KeepsMemory s u)
      (fun _ _ => False) s :=
    wp_forEach (Closing B p s) ⟨.refl s, fun _ _ => rfl, hfiles.refs, hfiles.pipes⟩
      (fun j u _ hj hu => exitFileRound_closing (by omega) hu) fun u hu => hu.keeps
  refine wp_mono loop (fun _ u hu => ?_) fun _ _ h => h.elim
  refine wp_post reparent_frame fun _ x hx => ?_
  rw [wp_modifyProc]
  exact ⟨rfl, (hu.trans hx).exits⟩

end Exit

end Xv6Paging

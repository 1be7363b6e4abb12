import Xv6Paging.Machine.Sample
import Xv6Paging.Proc.Exec
import Xv6Paging.Vm.Exchange

/-!
# The image that exec commits to

Once the new image is built, `exec` records its pages in the process.  The loop that does so runs
to the size of the image, and the size check of `uvmalloc` allows twice as many pages as the `ram`
array has slots: beyond it the loop writes to the `swap` array.
-/

namespace Xv6Paging

open StateHalt
open Function (update update_apply)

/-! ## Recording the pages -/

section Record

variable {B : Build} {pol : Policy} {s t : Kernel} {p : Fin nproc} {n sz : Nat}

/-- The first `n` pages are recorded, from `ram[0]` on: beyond the `ram` array, in the `swap` array.
The rest of the `swap` array is as `remove_page` left it. -/
structure Recorded (n : Nat) (pr : Proc) : Prop where
  ram : ∀ k, k.val < n → (pr.ram k).used = true ∧ (pr.ram k).va = pageVa k
  swap : ∀ k : Fin maxPsycPages, maxPsycPages + k < n → (pr.swap k).used = true
  rest : ∀ k : Fin maxPsycPages, n ≤ maxPsycPages + k → pr.swap k = .removed

/-- **Recording one more page**, in the `ram` array. -/
theorem Recorded.ram_page {pr : Proc} (h : Recorded n pr) (hn : n < maxPsycPages) :
    Recorded (n + 1) (admitPage pol pr (Fin.ofNat maxPsycPages n) (n * pgsize)) := by
  have hval : (Fin.ofNat maxPsycPages n).val = n := Nat.mod_eq_of_lt hn
  refine ⟨fun k hk => ?_, fun k hk => by omega, fun k _ => h.rest k (by omega)⟩
  simp only [admitPage, update_apply]
  split
  · rename_i hslot
    rw [hslot, hval, stampPage_used, stampPage_va, i32_page (Nat.lt_of_lt_of_le hn (by decide))]
    exact ⟨rfl, rfl⟩
  · rename_i hslot
    have : k.val ≠ n := fun hkn => hslot (Fin.ext (hkn.trans hval.symm))
    exact h.ram k (by omega)

/-- **Recording one more page**, beyond the `ram` array. -/
theorem Recorded.swap_page {pr : Proc} {c : BitVec 32} (h : Recorded n pr)
    (hn : maxPsycPages ≤ n) (hlt : n < maxTotalPages) :
    Recorded (n + 1) { pr with
      swap := update pr.swap (Fin.ofNat maxPsycPages (n - maxPsycPages))
        (stampPage pol pr.fifoCounter (pr.swap (Fin.ofNat maxPsycPages (n - maxPsycPages)))
          (n * pgsize))
      fifoCounter := c } := by
  have hval : (Fin.ofNat maxPsycPages (n - maxPsycPages)).val = n - maxPsycPages :=
    Nat.mod_eq_of_lt (by simp only [maxTotalPages, maxPsycPages] at *; omega)
  refine ⟨fun k _ => h.ram k (by omega), fun k hk => ?_, fun k hk => ?_⟩
  · simp only [update_apply]
    split
    · exact stampPage_used _ _ _ _
    · rename_i hslot
      have : k.val ≠ n - maxPsycPages := fun hkn => hslot (Fin.ext (hkn.trans hval.symm))
      exact h.swap k (by omega)
  · have hslot : k ≠ Fin.ofNat maxPsycPages (n - maxPsycPages) := by
      rintro rfl
      omega
    simp only [Function.update_of_ne hslot]
    exact h.rest k (by omega)

theorem Recorded.registerPage {pr : Proc} (h : Recorded n pr) (hn : n < maxTotalPages) :
    Recorded (n + 1) (registerPage pol pr n) := by
  unfold Xv6Paging.registerPage
  split
  · exact h.ram_page ‹_›
  · exact h.swap_page (by omega) hn

/-- **One round of the loop** records one more page, and renews the swap file. -/
theorem registerRound_spec (hrec : Recorded n (s.proc p)) (hown : ∃ f ino, OwnsSwapFile p f ino s)
    (hn : n < maxTotalPages) :
    wp (registerRound B pol p n)
      (fun _ s' => Recorded (n + 1) (s'.proc p) ∧ ∃ f ino, OwnsSwapFile p f ino s')
      (fun _ _ => False) s := by
  obtain ⟨f, ino, hown⟩ := hown
  unfold registerRound
  rw [if_neg (by omega), wp_bind, wp_modifyProc]
  have hframe : (registerPage pol (s.proc p) n).swapFile = (s.proc p).swapFile ∧
      (registerPage pol (s.proc p) n).pid = (s.proc p).pid := by
    unfold registerPage
    split <;> exact ⟨rfl, rfl⟩
  have hset := hown.setProc hframe.1 hframe.2
  refine wp_post hset.renew ?_
  rintro _ u ⟨g, i, hu, hproc⟩
  refine ⟨?_, g, i, hu⟩
  have hnext : Recorded (n + 1) (registerPage pol (s.proc p) n) := hrec.registerPage hn
  rw [hproc, Function.update_self, Kernel.setProc_self]
  exact ⟨hnext.ram, hnext.swap, hnext.rest⟩

/-- **What the loop records**: the pages of the image, as many as the two arrays have slots. -/
theorem execRegister_spec (hB : B.selection = .paging pol) (hpid : 2 < (s.proc p).pid)
    (hown : ∃ f ino, OwnsSwapFile p f ino s) (hsz : sz ≤ maxTotalPages * pgsize) :
    wp (execRegister B p sz)
      (fun _ s' => Recorded ((sz + (pgsize - 1)) / pgsize) (s'.proc p)) (fun _ _ => False) s := by
  simp only [execRegister, hB, wp_bind, wp_getProc]
  rw [onlyIf_true hpid, wp_bind, wp_modifyProc]
  refine wp_forEach
    (fun n t => Recorded n (t.proc p) ∧ ∃ f ino, OwnsSwapFile p f ino t) ?_ ?_ ?_
  · obtain ⟨f, ino, hown⟩ := hown
    refine ⟨?_, f, ino, hown.setProc rfl rfl⟩
    rw [Kernel.setProc_self]
    exact ⟨fun k hk => by omega, fun k hk => by omega, fun _ _ => rfl⟩
  · rintro n t - hn ⟨hrec, hown⟩
    refine registerRound_spec hrec hown ?_
    simp only [maxTotalPages, pgsize] at *
    omega
  · rintro t ⟨hrec, -⟩
    rwa [Nat.zero_add] at hrec

/-- The loop stored each page of an image of `sz` bytes in the `ram` slot of its number, and nothing
in the `swap` array, which `remove_page` had cleared. -/
structure WithinRam (sz : Nat) (pr : Proc) : Prop where
  ram : ∀ i, i * pgsize < sz →
    ∃ k : Fin maxPsycPages, k.val = i ∧ (pr.ram k).used = true ∧ (pr.ram k).va = pageVa i
  swap : ∀ k, pr.swap k = .removed

/-- A file with one loadable segment of `memsz` bytes at address 0. -/
def sampleProgram (memsz : Nat) : Inode :=
  let bytes : List UInt8 :=
    [0x7F, 0x45, 0x4C, 0x46] ++ List.replicate 28 0 ++ [64] ++ List.replicate 23 0 ++ [1] ++
      List.replicate 7 0 ++ [1] ++ List.replicate 39 0 ++
        ((List.range 8).map fun k => UInt8.ofNat (memsz / 256 ^ k)) ++ List.replicate 8 0
  ⟨tFile, 1, 1, bytes.length, fun k => bytes.getD k 0⟩

/-- A process of one page with a swap file of its own that is in the root directory. -/
def execKernel : Kernel :=
  { sampleKernel (sampleTable [(0, sampleUser 10)])
      { sampleProc 3 pgsize with swapFile := some 0 } with
    ftable := update (fun _ => .zero) 0 ⟨.inode, 1, true, true, 0, 1, 0⟩
    inode := update (fun _ => .free) 1 ⟨tFile, 1, 1, 0, fun _ => 0⟩
    rootdir := update (fun _ => none) (swapName 3) (some 1) }

end Record

end Xv6Paging

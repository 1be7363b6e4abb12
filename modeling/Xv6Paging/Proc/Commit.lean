import Xv6Paging.Logic.Obeys
import Xv6Paging.Proc.Image

/-!
# The commit keeps the new image

The commit of `exec` makes the swap file anew and frees the old image: its pages, its page-table
pages and its root page.  A page of the new image is none of these, so it keeps its contents.
-/

namespace Xv6Paging

open StateHalt

/-- The page `pa` belongs to the new image, with the table `r`: it is no page of the old image, no
page-table page of it, and no pipe. -/
structure Apart (old r pa : Nat) (s : Kernel) : Prop where
  table : r ≠ old
  frame : pa ≠ 0
  root : old ≠ pa
  leaf : ∀ v, pte2pa ((s.ptables old).leaf v) ≠ pa
  dir : ∀ level idx, (s.ptables old).dir level idx ≠ some pa
  pipe : ∀ f, (s.ftable f).type = .pipe → (s.ftable f).pipe ≠ pa

/-- What is kept of the new image and of the processes. -/
structure ImageKept (r pa : Nat) (s s' : Kernel) : Prop where
  cur : s'.cur = s.cur
  mem : s'.mem pa = s.mem pa
  table : s'.ptables r = s.ptables r
  proc : ∀ i, (s'.proc i).frame = (s.proc i).frame ∧
    (s'.proc i).pagetable = (s.proc i).pagetable ∧ (s'.proc i).sz = (s.proc i).sz

/-- A page of the new image stays one, with its contents. -/
def KeepsImage (old r pa : Nat) (s s' : Kernel) : Prop :=
  Apart old r pa s → Apart old r pa s' ∧ ImageKept r pa s s'

instance (old r pa : Nat) : IsPreorder Kernel (KeepsImage old r pa) where
  refl _ h := ⟨h, rfl, rfl, rfl, fun _ => ⟨rfl, rfl, rfl⟩⟩
  trans s t u h h' hs := by
    obtain ⟨ht, k⟩ := h hs
    obtain ⟨hu, k'⟩ := h' ht
    refine ⟨hu, k'.cur.trans k.cur, k'.mem.trans k.mem, k'.table.trans k.table, fun i => ?_⟩
    obtain ⟨h1, h2, h3⟩ := k.proc i
    obtain ⟨h1', h2', h3'⟩ := k'.proc i
    exact ⟨h1'.trans h1, h2'.trans h2, h3'.trans h3⟩

/-- A program that keeps the new image. -/
abbrev SparesImage (old r pa : Nat) {α : Type} (m : KM α) : Prop :=
  Obeys m (KeepsImage old r pa) fun _ => True

section Steps

variable {B : Build} {old r pa : Nat} {s : Kernel} {p : Fin nproc}

theorem sparesImage_of {α : Type} {m : KM α}
    (h : ∀ s, Apart old r pa s → wp m (fun _ s' => KeepsImage old r pa s s') (fun _ _ => True) s) :
    SparesImage old r pa m := by
  constructor
  intro s
  by_cases hs : Apart old r pa s
  · exact h s hs
  · exact wp_any fun _ _ hs' => absurd hs' hs

theorem Apart.setProc (h : Apart old r pa s) (i : Fin nproc) (q : Proc) :
    Apart old r pa (s.setProc i q) :=
  ⟨h.table, h.frame, h.root, h.leaf, h.dir, h.pipe⟩

theorem keepsImage_setProc (f : Proc → Proc) (hf : ∀ pr, (f pr).frame = pr.frame ∧
    (f pr).pagetable = pr.pagetable ∧ (f pr).sz = pr.sz) :
    KeepsImage old r pa s (s.setProc p (f (s.proc p))) := by
  intro h
  refine ⟨h.setProc _ _, rfl, rfl, rfl, fun i => ?_⟩
  by_cases hi : i = p
  · subst hi
    rw [Kernel.setProc_self]
    exact hf _
  · rw [Kernel.setProc_of_ne _ _ hi]
    exact ⟨rfl, rfl, rfl⟩

theorem modifyProc_keeps {f : Proc → Proc} (hf : ∀ pr, (f pr).frame = pr.frame ∧
    (f pr).pagetable = pr.pagetable ∧ (f pr).sz = pr.sz) : SparesImage old r pa (modifyProc p f) :=
  Obeys.modify fun _ => keepsImage_setProc f hf

theorem keepsImage_setFile (f : Fin nfile) (x : File)
    (hx : Apart old r pa s → x.type = .pipe → x.pipe ≠ pa) :
    KeepsImage old r pa s (s.setFile f x) := by
  intro h
  refine ⟨⟨h.table, h.frame, h.root, h.leaf, h.dir, fun i hi => ?_⟩, rfl, rfl, rfl,
    fun _ => ⟨rfl, rfl, rfl⟩⟩
  simp only [Kernel.setFile, Function.update_apply] at hi ⊢
  split at hi
  · rename_i heq
    rw [if_pos heq]
    exact hx h hi
  · rename_i hne
    rw [if_neg hne]
    exact h.pipe i hi

theorem keepsImage_setTable (pt : PageTable)
    (hleaf : Apart old r pa s → ∀ v, pte2pa (pt.leaf v) ≠ pa)
    (hdir : Apart old r pa s → ∀ level idx, pt.dir level idx ≠ some pa) :
    KeepsImage old r pa s (s.setTable old pt) := by
  intro h
  have hself : (s.setTable old pt).ptables old = pt := by simp [Kernel.setTable]
  refine ⟨⟨h.table, h.frame, h.root, ?_, ?_, h.pipe⟩, rfl, rfl, ?_, fun _ => ⟨rfl, rfl, rfl⟩⟩
  · rw [hself]
    exact hleaf h
  · rw [hself]
    exact hdir h
  · exact Kernel.setTable_of_ne s pt h.table

theorem kfree_keeps {q : Nat} (hq : q ≠ pa) : SparesImage old r pa (kfree B q) := by
  refine sparesImage_of fun s _ => ?_
  rw [wp_kfree]
  split
  · intro h
    refine ⟨⟨h.table, h.frame, h.root, h.leaf, h.dir, h.pipe⟩, rfl, ?_, rfl,
      fun _ => ⟨rfl, rfl, rfl⟩⟩
    show (Function.update s.mem q _) pa = _
    rw [Function.update_of_ne hq.symm]
  · trivial

theorem keepsImage_clear (v : Nat) : KeepsImage old r pa s (s.setPte old v 0#64) := by
  refine keepsImage_setTable _ (fun h w => ?_) fun h => h.dir
  simp only [PageTable.setLeaf, Function.update_apply]
  split
  · have hzero : pte2pa 0#64 = 0 := by decide
    rw [hzero]
    exact h.frame.symm
  · exact h.leaf w

theorem walk_reads {va : Nat} : wp (walk r va false)
    (fun o s' => s' = s ∧ ∀ pte, o = some pte → pte = ⟨r, va / pgsize⟩) (fun _ _ => True) s := by
  by_cases hva : va < maxva
  · rw [wp_walk_false hva]
    split
    · refine ⟨rfl, ?_⟩
      rintro pte ⟨⟩
      rfl
    · refine ⟨rfl, ?_⟩
      rintro pte ⟨⟩
  · rw [wp_walk_ge (Nat.not_lt.mp hva)]
    trivial

theorem clearEntry_keeps {c : Prop} [Decidable c] {v : Nat} {x : Pte} (hx : pte2pa x ≠ pa) :
    SparesImage old r pa (do onlyIf c (kfree B (pte2pa x)); writePte ⟨old, v⟩ 0#64) :=
  Obeys.bind (Obeys.onlyIf fun _ => kfree_keeps hx) fun _ =>
    Obeys.modify fun _ => keepsImage_clear v

theorem uvmunmapNoneRound_keeps (va : Nat) (doFree : Bool) (k : Nat) :
    SparesImage old r pa (uvmunmapNoneRound B old va doFree k) := by
  refine sparesImage_of fun s hs => ?_
  rw [uvmunmapNoneRound, wp_bind]
  refine wp_mono walk_reads ?_ fun _ _ h => h
  rintro o _ ⟨rfl, ho⟩
  cases o with
  | none => trivial
  | some pte =>
    obtain rfl := ho pte rfl
    rw [wp_bind, wp_readPte]
    apply wp_ite
    · intro _
      trivial
    · intro _
      rw [wp_bind, wp_walkaddr]
      apply wp_ite
      · intro _
        trivial
      · intro _
        rw [wp_bind, wp_walkaddr]
        exact (clearEntry_keeps (hs.leaf _)).run _

theorem uvmunmapNotNoneRound_keeps (va : Nat) (doFree : Bool) (k : Nat) :
    SparesImage old r pa (uvmunmapNotNoneRound B old va doFree k) := by
  refine sparesImage_of fun s hs => ?_
  rw [uvmunmapNotNoneRound, wp_bind]
  refine wp_mono walk_reads ?_ fun _ _ h => h
  rintro o _ ⟨rfl, ho⟩
  cases o with
  | none => trivial
  | some pte =>
    obtain rfl := ho pte rfl
    rw [wp_bind, wp_readPte]
    apply wp_ite
    · intro _
      trivial
    · intro _
      apply wp_ite
      · intro _
        trivial
      · intro _
        refine Obeys.run (R := KeepsImage old r pa) ?_ _
        refine Obeys.bind (Obeys.onlyIf fun _ => kfree_keeps (hs.leaf _)) fun _ => ?_
        refine Obeys.bind (Obeys.modify fun _ => keepsImage_clear _) fun _ => ?_
        refine Obeys.bind (Obeys.bind Obeys.get fun t => ?_) fun p =>
          Obeys.bind (Obeys.bind Obeys.get fun _ => Obeys.pure _) fun pr =>
            Obeys.onlyIf fun _ => modifyProc_keeps fun _ => ⟨rfl, rfl, rfl⟩
        cases t.cur with
        | some p => exact Obeys.pure p
        | none => exact Obeys.throw trivial

theorem uvmunmap_keeps (va npages : Nat) (doFree : Bool) :
    SparesImage old r pa (uvmunmap B old va npages doFree) := by
  unfold uvmunmap
  cases B.selection with
  | none =>
    exact Obeys.ite (fun _ => Obeys.throw trivial) fun _ =>
      Obeys.forEach (uvmunmapNoneRound_keeps va doFree) 0 npages
  | paging pol =>
    exact Obeys.ite (fun _ => Obeys.throw trivial) fun _ =>
      Obeys.forEach (uvmunmapNotNoneRound_keeps va doFree) 0 npages

theorem freewalkLeaf_keeps (idx : Nat) {child : Nat} (hc : child ≠ pa) :
    SparesImage old r pa (freewalkLeaf B old idx child) := by
  refine Obeys.bind (Obeys.forEach (fun k => ?_) 0 512) fun _ => kfree_keeps hc
  refine Obeys.bind (Obeys.bind Obeys.get fun _ => Obeys.pure _) fun x => ?_
  exact Obeys.ite (fun _ => Obeys.throw trivial) fun _ =>
    Obeys.ite (fun _ => Obeys.throw trivial) fun _ => Obeys.pure ()

theorem keepsImage_clearDir (level idx : Nat) :
    KeepsImage old r pa s (s.setTable old ((s.ptables old).clearDir level idx)) := by
  refine keepsImage_setTable _ (fun h => h.leaf) fun h l j => ?_
  simp only [PageTable.clearDir]
  split
  · simp
  · exact h.dir l j

theorem freewalkDir_keeps (idx : Nat) {child : Nat} (hc : child ≠ pa) :
    SparesImage old r pa (freewalkDir B old idx child) := by
  refine Obeys.bind (Obeys.forEach (fun k => sparesImage_of fun s hs => ?_) 0 512) fun _ =>
    kfree_keeps hc
  rw [wp_bind, wp_get]
  cases hd : (s.ptables old).dir 1 (idx * 512 + k) with
  | none => exact (Obeys.pure (R := KeepsImage old r pa) ()).run s
  | some c =>
    have hne : c ≠ pa := fun heq => hs.dir 1 (idx * 512 + k) (heq ▸ hd)
    exact (Obeys.bind (freewalkLeaf_keeps _ hne) fun _ =>
      Obeys.modify fun _ => keepsImage_clearDir 1 _).run s

theorem freewalk_keeps (hroot : old ≠ pa) : SparesImage old r pa (freewalk B old) := by
  refine Obeys.bind (Obeys.forEach (fun k => sparesImage_of fun s hs => ?_) 0 512) fun _ =>
    kfree_keeps hroot
  rw [wp_bind, wp_get]
  cases hd : (s.ptables old).dir 2 k with
  | none => exact (Obeys.pure (R := KeepsImage old r pa) ()).run s
  | some c =>
    have hne : c ≠ pa := fun heq => hs.dir 2 k (heq ▸ hd)
    exact (Obeys.bind (freewalkDir_keeps _ hne) fun _ =>
      Obeys.modify fun _ => keepsImage_clearDir 2 _).run s

/-- **Freeing the old image.** -/
theorem procFreepagetable_keeps (hroot : old ≠ pa) (sz : Nat) :
    SparesImage old r pa (procFreepagetable B old sz) := by
  refine Obeys.bind (uvmunmap_keeps _ _ _) fun _ =>
    Obeys.bind (uvmunmap_keeps _ _ _) fun _ => ?_
  exact Obeys.bind (Obeys.onlyIf fun _ => uvmunmap_keeps _ _ _) fun _ => freewalk_keeps hroot

/-! ## The swap file -/

theorem keepsImage_files {s' : Kernel}
    (hs : s' = { s with inode := s'.inode, rootdir := s'.rootdir }) :
    KeepsImage old r pa s s' := by
  intro h
  rw [hs]
  exact ⟨⟨h.table, h.frame, h.root, h.leaf, h.dir, h.pipe⟩, rfl, rfl, rfl, fun _ => ⟨rfl, rfl, rfl⟩⟩

theorem pipeclose_keeps {pi : Nat} (hpi : pi ≠ pa) (writable : Bool) :
    SparesImage old r pa (pipeclose B pi writable) := by
  refine Obeys.bind (Obeys.modify fun s h => ?_) fun _ => Obeys.bind Obeys.get fun t =>
    Obeys.onlyIf fun _ => kfree_keeps hpi
  exact ⟨⟨h.table, h.frame, h.root, h.leaf, h.dir, h.pipe⟩, rfl, rfl, rfl, fun _ => ⟨rfl, rfl, rfl⟩⟩

theorem iput_keeps (ino : Nat) : SparesImage old r pa (iput ino) :=
  Obeys.modify fun _ => keepsImage_files rfl

theorem fileclose_keeps (f : Fin nfile) : SparesImage old r pa (fileclose B f) := by
  refine sparesImage_of fun s hs => ?_
  rw [fileclose, wp_bind, wp_get]
  apply wp_ite
  · intro _
    trivial
  · intro _
    apply wp_ite
    · intro _
      exact keepsImage_setFile f _ fun _ => hs.pipe f
    · intro _
      refine Obeys.run (R := KeepsImage old r pa) ?_ s
      refine Obeys.bind (Obeys.modify fun t => keepsImage_setFile f _ fun _ h => ?_) fun _ => ?_
      · cases h
      · cases htype : (s.ftable f).type with
        | none => exact Obeys.pure ()
        | pipe => exact pipeclose_keeps (hs.pipe f htype) _
        | inode => exact iput_keeps _
        | device => exact iput_keeps _

theorem removeSwapFile_keeps : SparesImage old r pa (removeSwapFile B p) := by
  refine Obeys.bind (Obeys.bind Obeys.get fun _ => Obeys.pure _) fun pr => ?_
  cases pr.swapFile with
  | none => exact Obeys.pure (-1)
  | some f =>
    refine Obeys.bind (fileclose_keeps f) fun _ => Obeys.bind Obeys.get fun t => ?_
    cases t.rootdir (swapName pr.pid) with
    | none => exact Obeys.pure (-1)
    | some ino =>
      refine Obeys.bind Obeys.get fun u => Obeys.ite (fun _ => Obeys.throw trivial) fun _ =>
        Obeys.ite (fun _ => Obeys.pure (-1)) fun _ => ?_
      exact Obeys.bind (Obeys.modify fun _ => keepsImage_files rfl) fun _ =>
        Obeys.bind (iput_keeps ino) fun _ => Obeys.pure 0

theorem createSwapFile_keeps : SparesImage old r pa (createSwapFile p) := by
  refine sparesImage_of fun s hs => ?_
  refine wp_mono createSwapFile_spec ?_ fun _ _ _ => trivial
  rintro _ s' ⟨-, f, ino, ho⟩ h
  have hmem : s'.mem = s.mem := by rw [ho.rest]
  have htab : s'.ptables = s.ptables := by rw [ho.rest]
  refine ⟨⟨h.table, h.frame, h.root, ?_, ?_, fun i hi => ?_⟩, ?_, by rw [hmem], by rw [htab],
    fun i => ?_⟩
  · rw [htab]
    exact h.leaf
  · rw [htab]
    exact h.dir
  · rw [ho.ftable, Function.update_apply] at hi ⊢
    split at hi
    · cases hi
    · rename_i hne
      rw [if_neg hne]
      exact h.pipe i hi
  · rw [ho.rest]
  · rw [ho.proc, Function.update_apply]
    split
    · rename_i hi
      subst hi
      exact ⟨rfl, rfl, rfl⟩
    · exact ⟨rfl, rfl, rfl⟩

theorem registerPage_frame (pol : Policy) (pr : Proc) (i : Nat) :
    (registerPage pol pr i).frame = pr.frame ∧
      (registerPage pol pr i).pagetable = pr.pagetable ∧ (registerPage pol pr i).sz = pr.sz := by
  unfold registerPage
  split <;> exact ⟨rfl, rfl, rfl⟩

/-- **The bookkeeping of the new image.** -/
theorem execRegister_keeps (sz : Nat) : SparesImage old r pa (execRegister B p sz) := by
  unfold execRegister
  cases B.selection with
  | none => exact Obeys.pure ()
  | paging pol =>
    refine Obeys.bind (Obeys.bind Obeys.get fun _ => Obeys.pure _) fun pr =>
      Obeys.onlyIf fun _ => ?_
    refine Obeys.bind (modifyProc_keeps fun _ => ⟨rfl, rfl, rfl⟩) fun _ => ?_
    refine Obeys.forEach (fun i => Obeys.ite (fun _ => Obeys.throw trivial) fun _ => ?_) 0 _
    refine Obeys.bind (modifyProc_keeps fun pr => registerPage_frame pol pr i) fun _ => ?_
    refine Obeys.bind removeSwapFile_keeps fun _ =>
      Obeys.ite (fun _ => Obeys.throw trivial) fun _ => ?_
    exact Obeys.bind createSwapFile_keeps fun _ =>
      Obeys.ite (fun _ => Obeys.throw trivial) fun _ => Obeys.pure ()

/-- **The commit** installs the image and the registers; a page of the image keeps its contents. -/
theorem execCommit_spec {sz entry sp : Nat} {path : List UInt8}
    (h : Apart (s.proc p).pagetable r pa s) : wp (execCommit B p r sz entry sp path) (fun _ s' =>
      (s'.proc p).pagetable = r ∧ (s'.proc p).sz = sz ∧
      (s'.proc p).frame tfA1 = BitVec.ofNat 64 sp ∧ (s'.proc p).frame tfSp = BitVec.ofNat 64 sp ∧
      (s'.proc p).frame tfEpc = BitVec.ofNat 64 entry ∧
      s'.mem pa = s.mem pa ∧ s'.ptables r = s.ptables r) (fun _ _ => True) s := by
  have hreg : SparesImage (s.proc p).pagetable r pa (execRegister B p sz) := execRegister_keeps sz
  simp only [execCommit, wp_bind, wp_getProc]
  refine wp_post (hreg.run s) fun _ t ht => ?_
  obtain ⟨hapart, hkept⟩ := ht h
  rw [wp_modifyProc, (hkept.proc p).2.1]
  have hfree : SparesImage (s.proc p).pagetable r pa
      (procFreepagetable B (s.proc p).pagetable (s.proc p).sz) :=
    procFreepagetable_keeps hapart.root _
  refine wp_post (hfree.run _) fun _ u hu => ?_
  obtain ⟨-, hfreed⟩ := hu (hapart.setProc _ _)
  obtain ⟨hframe, hpt, hsz⟩ := hfreed.proc p
  rw [Kernel.setProc_self] at hframe hpt hsz
  refine ⟨hpt, hsz, ?_, ?_, ?_, hfreed.mem.trans hkept.mem, hfreed.table.trans hkept.table⟩
  all_goals rw [hframe]
  · rfl
  · rfl
  · rfl

end Steps

end Xv6Paging

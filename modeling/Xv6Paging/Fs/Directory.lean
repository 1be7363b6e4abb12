import Xv6Paging.Fs.Inodes
import Xv6Paging.Fs.Names
import Xv6Paging.Logic.Table

/-!
# Directories

A directory is a file of entries of 16 bytes: an inode number, 0 for a free entry, and a name of 14
bytes with a NUL behind a shorter one.  `dirlookup` and `dirlink` each walk over the entries, and a
name is removed by writing zeroes over its entry.

Names are equal for the kernel if their first 14 characters up to a NUL are.  If no two entries in
use have equal names, a directory is a finite map from names to inodes.
-/

namespace Xv6Paging

open CString Names
open Function (update)

/-- `T_DIR`. -/
abbrev typeDir : BitVec 16 := 1

/-- `struct dirent`. -/
structure Dirent where
  inum : BitVec 16
  name : List UInt8

namespace Dirent

/-- The bytes of an entry as a structure. -/
def ofBytes (b : List UInt8) : Dirent where
  inum := (b.getD 1 0).toBitVec ++ (b.getD 0 0).toBitVec
  name := (b.drop 2).take dirsiz

/-- The structure as bytes. -/
def toBytes (d : Dirent) : List UInt8 :=
  .ofBitVec (d.inum.extractLsb' 0 8) :: .ofBitVec (d.inum.extractLsb' 8 8) :: d.name

theorem length_toBytes {d : Dirent} (h : d.name.length = dirsiz) : d.toBytes.length = 16 := by
  rw [toBytes, List.length_cons, List.length_cons, h]

theorem ofBytes_toBytes {d : Dirent} (h : d.name.length = dirsiz) : ofBytes d.toBytes = d := by
  obtain ⟨inum, name⟩ := d
  have hname : name.take dirsiz = name := List.take_of_length_le (Nat.le_of_eq h)
  have hinum : inum.extractLsb' 8 8 ++ inum.extractLsb' 0 8 = inum := by
    apply BitVec.eq_of_getLsbD_eq
    intro i hi
    rw [BitVec.getLsbD_append, BitVec.getLsbD_extractLsb', BitVec.getLsbD_extractLsb']
    by_cases hlow : i < 8
    · simp [hlow]
    · have hhigh : i - 8 < 8 := by omega
      have hsum : 8 + (i - 8) = i := by omega
      simp [hlow, hhigh, hsum]
  simp only [ofBytes, toBytes, List.getD_cons_succ, List.getD_cons_zero, List.drop_succ_cons,
    List.drop_zero, UInt8.toBitVec_ofBitVec, mk.injEq]
  exact ⟨hinum, hname⟩

end Dirent

/-! ## The entries of a directory -/

/-- The entry with this number. -/
def direntAt (content : List UInt8) (k : Nat) : Dirent := .ofBytes ((content.drop (16 * k)).take 16)

/-- The name and the inode of an entry in use. -/
def Dirent.slot (de : Dirent) : Option (List UInt8 × Nat) :=
  if de.inum = 0 then none else some (key de.name, de.inum.toNat)

/-- The entries in use. -/
def direntTable (content : List UInt8) : Table (List UInt8) Nat where
  size := content.length / 16
  slot k := (direntAt content k).slot

theorem direntAt_overwrite {content buf : List UInt8} {k : Nat} (hlen : buf.length = 16)
    (hk : 16 * k ≤ content.length) (j : Nat) : direntAt (Disk.overwrite content (16 * k) buf) j =
      if j = k then Dirent.ofBytes buf else direntAt content j := by
  have hbytes : ∀ i : Nat, (((Disk.overwrite content (16 * k) buf).drop (16 * j)).take 16)[i]? =
      if j = k then buf[i]? else ((content.drop (16 * j)).take 16)[i]? := by
    intro i
    rw [List.getElem?_take, List.getElem?_take, List.getElem?_drop, List.getElem?_drop,
      Disk.getElem?_overwrite buf hk]
    by_cases hi : i < 16
    · rw [if_pos hi, if_pos hi]
      by_cases hj : j = k
      · have hsub : 16 * j + i - 16 * k = i := by omega
        rw [if_pos hj, if_pos (by omega), hsub]
      · rw [if_neg hj, if_neg (by omega)]
    · rw [if_neg hi, if_neg hi, List.getElem?_eq_none (by omega)]
      exact (ite_self none).symm
  unfold direntAt
  by_cases hj : j = k
  · rw [if_pos hj]
    congr 1
    apply List.ext_getElem?
    intro i
    rw [hbytes i, if_pos hj]
  · rw [if_neg hj]
    congr 1
    apply List.ext_getElem?
    intro i
    rw [hbytes i, if_neg hj]

/-- **A written entry** is a slot that changes. -/
theorem direntTable_overwrite {content buf : List UInt8} {k : Nat} (hlen : buf.length = 16)
    (hmod : content.length % 16 = 0) (hk : 16 * k ≤ content.length) :
    direntTable (Disk.overwrite content (16 * k) buf) =
      (direntTable content).put k (Dirent.ofBytes buf).slot := by
  ext1
  · show (Disk.overwrite content (16 * k) buf).length / 16 = max (content.length / 16) (k + 1)
    rw [Disk.length_overwrite buf hk, hlen]
    omega
  · funext j
    show (direntAt _ j).slot = update (direntTable content).slot k _ j
    rw [direntAt_overwrite hlen hk]
    by_cases hj : j = k
    · rw [if_pos hj, hj, Function.update_self]
    · rw [if_neg hj, Function.update_of_ne hj]
      rfl

namespace Inodes

open StateHalt Disk SlotMap

section Functions

variable (sb : Superblock)

/-- `readi(dp, 0, (uint64)&de, off, sizeof(de))`, with a panic unless all bytes are read. -/
def readDirent (p : InodePanic) (dp : Fin ninode) (off : Nat) : InodeM Dirent := do
  match ← onInode dp (readi sb (fun _ => true) (BitVec.ofNat 32 off) 16) with
  | some b => if b.length = 16 then pure (.ofBytes b) else throw p
  | none => throw p

/-- The loop of `dirlookup`: the inode number and the offset of the entry. -/
def dirlookupLoop (dp : Fin ninode) (name : List UInt8) (size off : Nat) :
    InodeM (Option (Nat × Nat)) := do
  if off < size then
    let de ← readDirent sb .dirlookupRead dp off
    if de.inum = 0 then dirlookupLoop dp name size (off + 16)
    else if namecmp name de.name = 0 then pure (some (de.inum.toNat, off))
    else dirlookupLoop dp name size (off + 16)
  else pure none
termination_by size - off

/-- `dirlookup`: the inode, and the offset of the entry. -/
def dirlookup (dp : Fin ninode) (name : List UInt8) : InodeM (Option (Fin ninode × Nat)) := do
  let d := ((← get).entry dp).fields
  if d.type ≠ typeDir then throw .dirlookupNotDir
  else
    match ← dirlookupLoop sb dp name d.size.toNat 0 with
    | none => pure none
    | some (inum, off) =>
      let ip ← iget inum
      pure (some (ip, off))

/-- The loop of `dirlink`: the offset of the first free entry, or the size. -/
def dirlinkLoop (dp : Fin ninode) (size off : Nat) : InodeM Nat := do
  if off < size then
    let de ← readDirent sb .dirlinkRead dp off
    if de.inum = 0 then pure off
    else dirlinkLoop dp size (off + 16)
  else pure off
termination_by size - off

/-- `writei(dp, 0, (uint64)&de, off, sizeof(de))`, with a panic unless all bytes are written. -/
def writeDirent (p : InodePanic) (dp : Fin ninode) (de : List UInt8) (off : Nat) : InodeM Unit := do
  let r ← onInode dp (writei sb (fromBuffer de) (BitVec.ofNat 32 off) 16)
  onlyIf (r ≠ some 16) (throw p)

def dirlink (dp : Fin ninode) (name : List UInt8) (inum : Nat) : InodeM Int := do
  match ← dirlookup sb dp name with
  | some (ip, _) =>
    iput sb ip
    pure (-1)
  | none =>
    let off ← dirlinkLoop sb dp ((← get).entry dp).fields.size.toNat 0
    let de : Dirent := ⟨BitVec.ofNat 16 inum, strncpy name dirsiz⟩
    writeDirent sb .dirlink dp de.toBytes off
    pure 0

/-- The entry of a name is found and `memset` to zero; the inode is returned. -/
def removeEntry (dp : Fin ninode) (name : List UInt8) : InodeM (Option (Fin ninode)) := do
  match ← dirlookup sb dp name with
  | none => pure none
  | some (ip, off) =>
    writeDirent sb .unlinkWritei dp (List.replicate 16 0) off
    pure (some ip)

end Functions

/-- The bytes of the directory. -/
def content (s : Inodes) (dp : Fin ninode) : List UInt8 := (s.focus dp).content

/-- The names in the directory. -/
def names (s : Inodes) (dp : Fin ninode) : Table (List UInt8) Nat := direntTable (s.content dp)

/-- The inode number and the offset of a name. -/
def answer (s : Inodes) (dp : Fin ninode) (x : List UInt8) : Option (Nat × Nat) :=
  ((s.names dp).lookup (key x)).map fun p => (p.2, 16 * p.1)

theorem length_content (s : Inodes) (dp : Fin ninode) :
    (s.content dp).length = (s.entry dp).fields.size.toNat := Disk.length_content _

/-- `dp` is a directory: it is in use, has been read, and consists of whole entries. -/
structure Dir (sb : Superblock) (s : Inodes) (dp : Fin ninode) : Prop where
  coherent : Coherent sb s
  used : 0 < (s.entry dp).ref
  valid : (s.entry dp).valid = true
  type : (s.entry dp).fields.type = typeDir
  size : (s.entry dp).fields.size.toNat % 16 = 0

/-- There is room for one more entry at the end: the file may grow, and the blocks that it then
needs are free. -/
structure HasRoom (sb : Superblock) (s : Inodes) (dp : Fin ninode) : Prop where
  size : (s.entry dp).fields.size.toNat + 16 ≤ maxfile * bsize
  blocks : lacking (diskRef sb s.disk (s.entry dp).inum)
    (touched (s.entry dp).fields.size.toNat 16) ≤ freeBlocks sb s.disk

namespace Dir

variable {sb : Superblock} {s : Inodes} {dp : Fin ninode} {name : List UInt8}

variable (h : Dir sb s dp)
include h

theorem live : DiskLive sb s.disk (s.entry dp).inum :=
  (h.coherent.current dp h.used h.valid).2

theorem focus_eq : s.focus dp = FsState.locked sb s.disk (s.entry dp).inum := by
  rw [focus, FsState.locked, (h.coherent.current dp h.used h.valid).1]

theorem covered : (s.focus dp).ip.Covered (s.focus dp).disk (s.focus dp).ip.size.toNat := by
  rw [h.focus_eq]
  exact h.coherent.sound.covered _ h.live

theorem size_le : (s.entry dp).fields.size.toNat ≤ maxfile * bsize := by
  show (s.entry dp).fields.size.toNat ≤ 274432
  by_contra hbig
  have hcov := (h.covered 268 (by show 274432 < (s.entry dp).fields.size.toNat; omega)).1
  exact absurd hcov (by decide)

/-! ## Looking up a name -/

theorem wp_readDirent (p : InodePanic) {k : Nat} (hk : k < (s.names dp).size) :
    wp (readDirent sb p dp (16 * k)) (fun de s' => s' = s ∧ de = direntAt (s.content dp) k)
      (fun _ _ => False) s := by
  have hlen := s.length_content dp
  have hsize := h.size_le
  have hsize : (s.entry dp).fields.size.toNat ≤ 274432 := hsize
  have hk : k < (s.content dp).length / 16 := hk
  have hoff : (BitVec.ofNat 32 (16 * k)).toNat = 16 * k := by
    rw [BitVec.toNat_ofNat]
    exact Nat.mod_eq_of_lt (by omega)
  unfold readDirent
  rw [wp_bind, Inodes.wp_onInode]
  refine wp_post (wp_readi_content (fun _ => rfl) h.covered _ _) ?_
  rintro r f ⟨rfl, rfl⟩
  have hsame : s.unfocus dp (s.focus dp) = s := by
    simp [unfocus, focus, Inodes.put]
  have hread : readResult (s.focus dp).content (BitVec.ofNat 32 (16 * k)).toNat
      (16 : BitVec 32).toNat = ((s.content dp).drop (16 * k)).take 16 := by
    rw [readResult, hoff, if_neg]
    · rfl
    · show ¬2 ^ 32 ≤ 16 * k + 16
      omega
  rw [hsame, hread]
  show wp (if (((s.content dp).drop (16 * k)).take 16).length = 16 then _ else _) _ _ s
  rw [if_pos (by rw [List.length_take, List.length_drop]; omega)]
  exact ⟨rfl, rfl⟩

theorem wp_dirlookupLoop (name : List UInt8) {m k : Nat} (hm : k + m = (s.names dp).size) :
    wp (dirlookupLoop sb dp name (s.entry dp).fields.size.toNat (16 * k)) (fun r s' => s' = s ∧
        r = ((s.names dp).lookupFrom (key name) m k).map fun p => (p.2, 16 * p.1))
      (fun _ _ => False) s := by
  have hlen := s.length_content dp
  have hmod := h.size
  have hn : (s.names dp).size = (s.content dp).length / 16 := rfl
  induction m generalizing k with
  | zero =>
    rw [dirlookupLoop, if_neg (by omega)]
    exact ⟨rfl, rfl⟩
  | succ m ih =>
    rw [dirlookupLoop, if_pos (by omega), wp_bind]
    refine wp_post (h.wp_readDirent .dirlookupRead (by omega)) ?_
    rintro de s' ⟨rfl, hde⟩
    have hslot : (s'.names dp).slot k = de.slot := by rw [hde]; rfl
    have hnext := ih (k := k + 1) (by omega)
    rw [Nat.mul_add, Nat.mul_one] at hnext
    rw [Table.lookupFrom, hslot, Dirent.slot]
    apply wp_ite <;> intro hfree
    · rw [if_pos hfree]
      exact hnext
    rw [if_neg hfree]
    dsimp only
    apply wp_ite <;> intro hname <;> rw [namecmp_eq_zero, eq_comm] at hname
    · rw [if_pos hname]
      exact ⟨rfl, rfl⟩
    · rw [if_neg hname]
      exact hnext

/-- The outcome of `dirlookup`. -/
def Looked (s : Inodes) (a : Option (Nat × Nat)) (r : Option (Fin ninode × Nat))
    (s' : Inodes) : Prop :=
  match a with
  | none => r = none ∧ s' = s
  | some (inum, off) => ∃ e, r = some (e, off) ∧ s.Gets inum e ∧ s' = s.gain e inum

/-- **`dirlookup`** finds the entry of a name, unless the table of inodes is full. -/
theorem wp_dirlookup (name : List UInt8) :
    wp (dirlookup sb dp name) (fun r s' => Looked s (s.answer dp name) r s')
      (fun p _ => p = .igetNoInodes ∧ s.answer dp name ≠ none ∧ ∀ e, 0 < (s.entry e).ref) s := by
  unfold dirlookup
  simp only [wp_bind, wp_get]
  rw [if_neg (not_not.mpr h.type), wp_bind]
  have hloop := h.wp_dirlookupLoop name (m := (s.names dp).size) (Nat.zero_add _)
  refine wp_mono hloop ?_ fun _ _ he => he.elim
  rintro r s' ⟨rfl, rfl⟩
  show wp (match s'.answer dp name with
    | none => pure none
    | some (inum, off) => do
      let ip ← iget inum
      pure (some (ip, off))) _ _ s'
  rcases s'.answer dp name with _ | ⟨inum, off⟩
  · exact ⟨rfl, rfl⟩
  · simp only [wp_bind, wp_pure]
    refine wp_mono (Inodes.wp_iget s' inum) ?_ ?_
    · rintro e s'' ⟨hg, rfl⟩
      exact ⟨e, rfl, hg, rfl⟩
    · rintro p _ ⟨hp, hfull⟩
      exact ⟨hp, Option.some_ne_none _, hfull⟩

/-! ## Writing an entry -/

theorem lacking_touched {k : Nat} (hk : k < (s.names dp).size) :
    lacking (diskRef sb s.disk (s.entry dp).inum) (touched (16 * k) 16) = 0 := by
  have hlen := s.length_content dp
  have hk : k < (s.content dp).length / 16 := hk
  have hcov := h.covered
  rw [h.focus_eq] at hcov
  have hsize : (FsState.locked sb s.disk (s.entry dp).inum).ip.size.toNat =
      (s.entry dp).fields.size.toNat := by
    rw [← h.focus_eq]
    rfl
  rw [hsize] at hcov
  refine Finset.card_eq_zero.mpr (Finset.filter_eq_empty_iff.mpr fun x hx hz => ?_)
  rcases Finset.mem_union.mp hx with hx | hx
  · obtain ⟨bn, hbn, rfl⟩ := Finset.mem_image.mp hx
    obtain ⟨-, -, -, hlt⟩ := Finset.mem_filter.mp hbn
    exact (hcov bn (by omega)).2 hz
  · -- the indirect block is there, because an entry of it is
    split at hx
    · rename_i hind
      rw [Finset.mem_singleton] at hx
      subst hx
      have hind : 12288 < 16 * k + 16 := hind.2
      have hentry := (hcov (ndirect) (by show 12 * 1024 < _; omega)).2
      exact hentry (if_pos hz)
    · exact absurd hx (Finset.notMem_empty x)

omit h in
/-- **An entry is written** over one of the directory, or behind the last. -/
theorem wp_writeDirent (hl : Layout sb) (h : Dir sb s dp) (p : InodePanic) {de : List UInt8}
    (hde : de.length = 16) {k : Nat} (hk : k ≤ (s.names dp).size)
    (hroom : k = (s.names dp).size → HasRoom sb s dp) :
    wp (writeDirent sb p dp de (16 * k)) (fun _ s' => Dir sb s' dp ∧
      s'.names dp = (s.names dp).put k (Dirent.ofBytes de).slot ∧
      ∀ e, s'.entry e = { s.entry e with fields := (s'.entry e).fields }) (fun _ _ => False) s := by
  have hlen := s.length_content dp
  have hmod := h.size
  have hn : (s.names dp).size = (s.content dp).length / 16 := rfl
  have hsize : (s.entry dp).fields.size.toNat ≤ 274432 := h.size_le
  have hoff : (BitVec.ofNat 32 (16 * k)).toNat = 16 * k := by
    rw [BitVec.toNat_ofNat]
    exact Nat.mod_eq_of_lt (by omega)
  have hsixteen : (16 : BitVec 32).toNat = 16 := rfl
  have hdisk : diskInode sb s.disk (s.entry dp).inum = (s.entry dp).fields :=
    ((h.coherent.current dp h.used h.valid).1).symm
  -- there are blocks enough, and the file does not become too large
  have henough : lacking (diskRef sb s.disk (s.entry dp).inum) (touched (16 * k) 16) ≤
      freeBlocks sb s.disk := by
    rcases Nat.lt_or_eq_of_le hk with hlt | heq
    · rw [h.lacking_touched hlt]
      exact Nat.zero_le _
    · have hend : 16 * k = (s.entry dp).fields.size.toNat := by omega
      rw [hend]
      exact (hroom heq).blocks
  have hmax : 16 * k + 16 ≤ maxfile * bsize := by
    show 16 * k + 16 ≤ 274432
    rcases Nat.lt_or_eq_of_le hk with hlt | heq
    · omega
    · have : (s.entry dp).fields.size.toNat + 16 ≤ 274432 := (hroom heq).size
      omega
  have hdel := delivers_fromBuffer de
  rw [hde, ← hsixteen] at hdel
  have hle : (BitVec.ofNat 32 (16 * k)).toNat ≤
      (diskInode sb s.disk (s.entry dp).inum).size.toNat := by
    rw [hoff, hdisk]
    omega
  have hwrite := wp_writei_bytes hl h.coherent.sound h.live hdel hle (by rw [hoff]; exact hmax)
    (touched_spans (by rw [hoff]; exact hmax))
  rw [hoff, hsixteen] at hwrite
  have hcount : counted (16 * k) 16 16 = 16 := if_pos le_rfl
  rw [hcount, Nat.min_self] at hwrite
  unfold writeDirent
  rw [wp_bind, Inodes.wp_onInode, h.focus_eq]
  refine wp_mono hwrite ?_ fun _ _ he => absurd he.2 (Nat.not_lt.mpr henough)
  rintro r f ⟨rfl, hw, -⟩
  simp only [onlyIf_false (not_not.mpr rfl), wp_pure]
  -- the inode is on the disk again
  have hlive : DiskLive sb f.disk (s.entry dp).inum := hw.live h.live.2 h.live.1
  obtain ⟨hcoh, hfocus⟩ := h.coherent.unfocus h.used hw.sound hw.locked hlive hw.inodes
  have hself : (s.unfocus dp f).entry dp = { s.entry dp with fields := f.ip } := s.put_self dp _
  have hsize' : f.ip.size.toNat = max (s.entry dp).fields.size.toNat (16 * k + 16) := by
    rw [hw.size]
    exact congrArg (fun d => max d.size.toNat (16 * k + 16)) hdisk
  have hcontent : (s.unfocus dp f).content dp = overwrite (s.content dp) (16 * k) de := by
    have hw' : Written sb (fun j => de.getD j 0) (16 * k) de.length de.length
        (FsState.locked sb s.disk (s.entry dp).inum) f := by
      rw [hde]
      exact hw
    rw [content, hfocus, content, h.focus_eq]
    exact hw'.content (hoff ▸ hle)
  refine ⟨⟨hcoh, ?_, ?_, ?_, ?_⟩, ?_, fun e => ?_⟩
  · rw [hself]
    exact h.used
  · rw [hself]
    exact h.valid
  · rw [hself]
    exact hw.type.trans ((congrArg Dinode.type hdisk).trans h.type)
  · rw [hself]
    show f.ip.size.toNat % 16 = 0
    omega
  · rw [names, hcontent]
    exact direntTable_overwrite hde (by omega) (by omega)
  · by_cases he : e = dp
    · rw [he, hself]
    · have hother : (s.unfocus dp f).entry e = s.entry e := s.put_of_ne _ he
      rw [hother]

/-! ## References come and go -/

theorem gain {inum : Nat} {e : Fin ninode} (hg : s.Gets inum e) :
    Dir sb (s.gain e inum) dp ∧ (s.gain e inum).focus dp = s.focus dp := by
  have hentry : (s.gain e inum).entry dp =
      { s.entry dp with ref := ((s.gain e inum).entry dp).ref } ∧
      0 < ((s.gain e inum).entry dp).ref := by
    by_cases he : dp = e
    · subst he
      have hne : (s.entry dp).ref ≠ 0 := Nat.ne_of_gt h.used
      rw [Inodes.gain, if_neg hne, put_self]
      exact ⟨rfl, Nat.succ_pos _⟩
    · rw [Inodes.gain, put_of_ne s _ he]
      exact ⟨rfl, h.used⟩
  refine ⟨⟨h.coherent.gain hg, hentry.2, ?_, ?_, ?_⟩, ?_⟩
  · rw [hentry.1]
    exact h.valid
  · rw [hentry.1]
    exact h.type
  · rw [hentry.1]
    exact h.size
  · rw [focus, hentry.1]
    rfl

theorem names_gain {inum : Nat} {e : Fin ninode} (hg : s.Gets inum e) :
    (s.gain e inum).names dp = s.names dp := by
  rw [names, content, (h.gain hg).2]
  rfl

end Dir

/-- A reference that `iget` has got is not the last one to a valid inode. -/
theorem not_lastRef_gain (s : Inodes) (e : Fin ninode) (inum : Nat) :
    ¬(s.gain e inum).LastRef e := by
  rintro ⟨hone, hvalid, -⟩
  rw [gain, put_self] at hone hvalid
  split at hone
  · rw [if_pos ‹_›] at hvalid
    cases hvalid
  · rename_i hne
    have hone : (s.entry e).ref + 1 = 1 := hone
    omega

/-- The disk and the entries in use are the same. -/
structure Same (s s' : Inodes) : Prop where
  disk : s'.disk = s.disk
  ref : ∀ e, (s'.entry e).ref = (s.entry e).ref
  entry : ∀ e, 0 < (s.entry e).ref → s'.entry e = s.entry e

theorem same_gain_drop (s : Inodes) (e : Fin ninode) (inum : Nat) :
    Same s ((s.gain e inum).drop e) := by
  have hother : ∀ e', e' ≠ e → ((s.gain e inum).drop e).entry e' = s.entry e' := by
    intro e' he
    rw [drop, put_of_ne _ _ he, gain, put_of_ne _ _ he]
  refine ⟨rfl, fun e' => ?_, fun e' hpos => ?_⟩
  · by_cases he : e' = e
    · subst he
      rw [drop, put_self, gain, put_self]
      split
      · rename_i h0
        exact h0.symm
      · exact Nat.add_sub_cancel _ 1
    · rw [hother e' he]
  · by_cases he : e' = e
    · subst he
      rw [drop, put_self, gain, put_self, if_neg (Nat.ne_of_gt hpos)]
      rfl
    · rw [hother e' he]

/-! ## A finite map -/

section Map

variable {sb : Superblock} {s : Inodes} {dp : Fin ninode} {name : List UInt8}

/-- `dirlookup` gives this answer, unless it panics because the table of inodes is full. -/
def Finds (sb : Superblock) (s : Inodes) (dp : Fin ninode) (x : List UInt8)
    (a : Option (Nat × Nat)) : Prop :=
  wp (dirlookup sb dp x)
    (fun r s' => r.map (fun p => ((s'.entry p.1).inum, p.2)) = a ∧
      ∀ e, (s'.entry e).ref = (s.entry e).ref + if r.map Prod.fst = some e then 1 else 0)
    (fun p _ => p = .igetNoInodes ∧ a ≠ none ∧ ∀ e, 0 < (s.entry e).ref) s

theorem Gets.inum_gain {inum : Nat} {e : Fin ninode} (hg : s.Gets inum e) :
    ((s.gain e inum).entry e).inum = inum := by
  rw [gain, put_self]
  split
  · rfl
  · rename_i hne
    exact hg.found (Nat.pos_of_ne_zero hne)

theorem ref_gain (s : Inodes) (e e' : Fin ninode) (inum : Nat) :
    ((s.gain e inum).entry e').ref = (s.entry e').ref + if e = e' then 1 else 0 := by
  by_cases he : e' = e
  · subst he
    rw [gain, put_self, if_pos rfl]
    split
    · rename_i h0
      rw [h0]
    · rfl
  · rw [gain, put_of_ne _ _ he, if_neg (Ne.symm he)]
    rfl

/-- **`dirlookup`** gives the answer of the directory. -/
theorem Dir.finds (h : Dir sb s dp) (x : List UInt8) : Finds sb s dp x (s.answer dp x) := by
  refine wp_post (h.wp_dirlookup x) ?_
  intro r s' hr
  rcases ha : s.answer dp x with _ | ⟨inum, off⟩
  · rw [ha] at hr
    obtain ⟨rfl, rfl⟩ := hr
    exact ⟨rfl, fun e => rfl⟩
  · rw [ha] at hr
    obtain ⟨e, rfl, hg, rfl⟩ := hr
    refine ⟨?_, fun e' => ?_⟩
    · show some (((s.gain e inum).entry e).inum, off) = _
      rw [hg.inum_gain]
    · rw [ref_gain]
      simp

theorem Dir.wp_dirlinkLoop (h : Dir sb s dp) {m k : Nat} (hm : k + m = (s.names dp).size) :
    wp (dirlinkLoop sb dp (s.entry dp).fields.size.toNat (16 * k))
      (fun r s' => s' = s ∧ r = 16 * (s.names dp).firstFreeFrom m k) (fun _ _ => False) s := by
  have hlen := s.length_content dp
  have hmod := h.size
  have hn : (s.names dp).size = (s.content dp).length / 16 := rfl
  induction m generalizing k with
  | zero =>
    rw [dirlinkLoop, if_neg (by omega)]
    exact ⟨rfl, rfl⟩
  | succ m ih =>
    rw [dirlinkLoop, if_pos (by omega), wp_bind]
    refine wp_post (h.wp_readDirent .dirlinkRead (by omega)) ?_
    rintro de s' ⟨rfl, hde⟩
    have hslot : (s'.names dp).slot k = de.slot := by rw [hde]; rfl
    have hnext := ih (k := k + 1) (by omega)
    rw [Nat.mul_add, Nat.mul_one] at hnext
    rw [Table.firstFreeFrom, hslot, Dirent.slot]
    apply wp_ite <;> intro hfree
    · rw [if_pos hfree, if_pos rfl]
      exact ⟨rfl, rfl⟩
    · rw [if_neg hfree, if_neg (Option.some_ne_none _)]
      exact hnext

theorem answer_of_lookup {s' : Inodes} {x y : List UInt8} {a : Option (Nat × Nat)}
    (h : (s'.names dp).lookup (key y) = if key y = key x then a else (s.names dp).lookup (key y)) :
    s'.answer dp y = if namecmp y x = 0 then a.map fun p => (p.2, 16 * p.1) else s.answer dp y := by
  unfold answer
  rw [h]
  by_cases hy : key y = key x
  · rw [if_pos hy, if_pos (namecmp_eq_zero.mpr hy)]
  · rw [if_neg hy, if_neg (mt namecmp_eq_zero.mp hy)]

/-- **`dirlink`** of a name that is there: nothing changes. -/
theorem Dir.wp_dirlink_found (h : Dir sb s dp) (inum : Nat) (hfound : s.answer dp name ≠ none) :
    wp (dirlink sb dp name inum) (fun r s' => r = -1 ∧ Same s s')
      (fun p _ => p = .igetNoInodes ∧ ∀ e, 0 < (s.entry e).ref) s := by
  unfold dirlink
  rw [wp_bind]
  refine wp_mono (h.wp_dirlookup name) ?_ fun _ _ he => ⟨he.1, he.2.2⟩
  intro r s' hr
  obtain ⟨⟨i, off⟩, ha⟩ := Option.ne_none_iff_exists'.mp hfound
  rw [ha] at hr
  obtain ⟨e, rfl, -, rfl⟩ := hr
  rw [wp_bind, wp_iput_kept (not_lastRef_gain s e i), wp_pure]
  exact ⟨rfl, same_gain_drop s e i⟩

/-- **`dirlink`** of a new name: the first free entry gets it. -/
theorem Dir.wp_dirlink_new (hl : Layout sb) (h : Dir sb s dp) (hroom : HasRoom sb s dp)
    {inum : Nat} (hpos : 0 < inum) (hinum : inum < 2 ^ 16) (hnew : s.answer dp name = none) :
    wp (dirlink sb dp name inum) (fun r s' => r = 0 ∧ Dir sb s' dp ∧
      s'.names dp = (s.names dp).put (s.names dp).firstFree (some (key name, inum)))
      (fun _ _ => False) s := by
  unfold dirlink
  rw [wp_bind]
  refine wp_mono (h.wp_dirlookup name) ?_ fun _ _ he => absurd hnew he.2.1
  intro r s' hr
  rw [hnew] at hr
  obtain ⟨rfl, rfl⟩ := hr
  simp only [wp_bind, wp_get]
  have hloop := h.wp_dirlinkLoop (m := (s'.names dp).size) (Nat.zero_add _)
  refine wp_post hloop ?_
  rintro off s'' ⟨rfl, rfl⟩
  -- the entry in memory, as it is read again
  set de : Dirent := ⟨BitVec.ofNat 16 inum, strncpy name dirsiz⟩ with hde
  have hlen : de.name.length = dirsiz := length_strncpy
  have hne : BitVec.ofNat 16 inum ≠ 0 := by
    intro h0
    have := congrArg BitVec.toNat h0
    rw [BitVec.toNat_ofNat, Nat.mod_eq_of_lt hinum] at this
    exact Nat.ne_of_gt hpos this
  have hslot : de.slot = some (key name, inum) := by
    rw [Dirent.slot, if_neg hne, hde, key, upto_strncpy, BitVec.toNat_ofNat,
      Nat.mod_eq_of_lt hinum]
    rfl
  have hwrite := h.wp_writeDirent hl .dirlink (Dirent.length_toBytes hlen)
    (Table.firstFree_spec _).1 fun _ => hroom
  rw [Dirent.ofBytes_toBytes hlen, hslot] at hwrite
  refine wp_post hwrite ?_
  rintro _ s₂ ⟨hdir, hnames, -⟩
  exact ⟨rfl, hdir, hnames⟩

/-- **The entry of a name is cleared**, if there is one. -/
theorem Dir.wp_removeEntry (hl : Layout sb) (h : Dir sb s dp) (x : List UInt8) :
    wp (removeEntry sb dp x) (fun r s' => match (s.names dp).lookup (key x) with
      | none => r = none ∧ s' = s
      | some (k, i) => ∃ e, r = some e ∧ (s'.entry e).inum = i ∧ Dir sb s' dp ∧
          s'.names dp = (s.names dp).put k none)
      (fun p _ => p = .igetNoInodes ∧ s.answer dp x ≠ none ∧ ∀ e, 0 < (s.entry e).ref) s := by
  unfold removeEntry
  rw [wp_bind]
  refine wp_mono (h.wp_dirlookup x) ?_ fun _ _ he => he
  intro r s' hr
  unfold answer at hr
  rcases hfound : (s.names dp).lookup (key x) with _ | ⟨k, i⟩
  · rw [hfound] at hr
    obtain ⟨rfl, rfl⟩ := hr
    exact ⟨rfl, rfl⟩
  · rw [hfound] at hr
    obtain ⟨e, rfl, hg, rfl⟩ := hr
    obtain ⟨hdir, -⟩ := h.gain hg
    have hnames := h.names_gain hg
    have hk := (Table.lookup_sound hfound).1
    have hslot : (Dirent.ofBytes (List.replicate 16 0)).slot = none := by decide
    have hwrite := hdir.wp_writeDirent hl .unlinkWritei (List.length_replicate (a := 0))
      (hnames ▸ Nat.le_of_lt hk) fun heq => absurd (hnames ▸ heq) (Nat.ne_of_lt hk)
    rw [hslot, hnames] at hwrite
    simp only [wp_bind, wp_pure]
    refine wp_mono hwrite ?_ fun _ _ he => he.elim
    rintro _ s₂ ⟨hdir₂, hnames₂, hentry⟩
    refine ⟨e, rfl, ?_, hdir₂, hnames₂⟩
    rw [hentry e]
    exact hg.inum_gain

/-- Some entry in use has the name. -/
def HasName (s : Inodes) (dp : Fin ninode) (name : List UInt8) : Prop :=
  ∃ k, 16 * k < (s.content dp).length ∧ (direntAt (s.content dp) k).inum ≠ 0 ∧
    namecmp name (direntAt (s.content dp) k).name = 0

theorem Dir.hasName_iff (h : Dir sb s dp) : HasName s dp name ↔ s.answer dp name ≠ none := by
  have hlen := s.length_content dp
  have hmod := h.size
  rw [answer, Ne, Option.map_eq_none_iff, Table.lookup_eq_none]
  constructor
  · rintro ⟨k, hk, hinum, hname⟩ hnone
    refine hnone k (direntAt (s.content dp) k).inum.toNat ?_ ?_
    · show k < (s.content dp).length / 16
      omega
    show (direntAt (s.content dp) k).slot = some (key name, _)
    rw [Dirent.slot, if_neg hinum, namecmp_eq_zero.mp hname]
  · intro hsome
    push Not at hsome
    obtain ⟨k, i, hk, hslot⟩ := hsome
    have hk : k < (s.content dp).length / 16 := hk
    have hslot : (direntAt (s.content dp) k).slot = some (key name, i) := hslot
    rw [Dirent.slot] at hslot
    split at hslot
    · cases hslot
    · rename_i hinum
      refine ⟨k, by omega, hinum, namecmp_eq_zero.mpr ?_⟩
      exact (Prod.mk.inj (Option.some.inj hslot)).1.symm

/-- **Directories are finite maps.**  `dirlink` refuses exactly the names that are there; another
name is found afterwards, in the first free entry, and the other answers are the same.  Clearing the
entry that `dirlookup` reports removes its name and no other.  Names stay different. -/
theorem directories_are_maps (hl : Layout sb) (h : Dir sb s dp) (hd : (s.names dp).Distinct)
    (name : List UInt8) : (∀ x, Finds sb s dp x (s.answer dp x)) ∧
    (∀ inum, 0 < inum → inum < 2 ^ 16 → HasRoom sb s dp → wp (dirlink sb dp name inum) (fun r s' =>
        (r = -1 ∧ Same s s' ↔ HasName s dp name) ∧
        (¬HasName s dp name → r = 0 ∧ Dir sb s' dp ∧ (s'.names dp).Distinct ∧
          ∀ x, Finds sb s' dp x (if namecmp x name = 0 then
            some (inum, 16 * (s.names dp).firstFree) else s.answer dp x)))
        (fun p _ => p = .igetNoInodes ∧ HasName s dp name ∧ ∀ e, 0 < (s.entry e).ref) s) ∧
    wp (removeEntry sb dp name) (fun r s' =>
      r.map (fun e => (s'.entry e).inum) = (s.answer dp name).map Prod.fst ∧
      Dir sb s' dp ∧ (s'.names dp).Distinct ∧
      ∀ x, Finds sb s' dp x (if namecmp x name = 0 then none else s.answer dp x))
      (fun p _ => p = .igetNoInodes ∧ HasName s dp name ∧ ∀ e, 0 < (s.entry e).ref) s := by
  refine ⟨h.finds, fun inum hpos hinum hroom => ?_, ?_⟩
  · by_cases hname : HasName s dp name
    · refine wp_mono (h.wp_dirlink_found inum (h.hasName_iff.mp hname)) ?_ ?_
      · rintro r s' hr
        exact ⟨⟨fun _ => hname, fun _ => hr⟩, fun hnot => absurd hname hnot⟩
      · rintro p _ ⟨hp, hfull⟩
        exact ⟨hp, hname, hfull⟩
    · have hnone : s.answer dp name = none := by
        by_contra hne
        exact hname (h.hasName_iff.mpr hne)
      have hnew : (s.names dp).lookup (key name) = none := Option.map_eq_none_iff.mp hnone
      obtain ⟨hk, hfree⟩ := (s.names dp).firstFree_spec
      refine wp_mono (h.wp_dirlink_new hl hroom hpos hinum hnone) ?_ fun _ _ he => he.elim
      rintro r s' ⟨rfl, hdir, hnames⟩
      refine ⟨⟨fun hr => absurd hr.1 (by decide), fun hhas => absurd hhas hname⟩,
        fun _ => ⟨rfl, hdir, ?_, fun x => ?_⟩⟩
      · rw [hnames]
        exact hd.insert hnew hk hfree
      · have hx := hdir.finds x
        have hlookup := hd.lookup_insert (v := inum) hnew hk hfree (key x)
        rw [← hnames] at hlookup
        rwa [answer_of_lookup hlookup] at hx
  · refine wp_mono (h.wp_removeEntry hl name) ?_ ?_
    · intro r s' hr
      rcases hfound : (s.names dp).lookup (key name) with _ | ⟨k, i⟩
      · rw [hfound] at hr
        obtain ⟨rfl, rfl⟩ := hr
        refine ⟨?_, h, hd, fun x => ?_⟩
        · rw [answer, hfound]
          rfl
        · -- the name was not there
          have hx := h.finds x
          split
          · rename_i hxn
            have hnone : s'.answer dp x = none := by
              rw [answer, namecmp_eq_zero.mp hxn, hfound]
              rfl
            rwa [hnone] at hx
          · exact hx
      · rw [hfound] at hr
        obtain ⟨e, rfl, hinum, hdir, hnames⟩ := hr
        refine ⟨?_, hdir, ?_, fun x => ?_⟩
        · rw [answer, hfound]
          exact congrArg some hinum
        · rw [hnames]
          exact hd.remove (Table.lookup_sound hfound).1
        · have hx := hdir.finds x
          have hlookup := hd.lookup_remove hfound (key x)
          rw [← hnames] at hlookup
          rwa [answer_of_lookup hlookup] at hx
    · rintro p _ ⟨hp, hne, hfull⟩
      exact ⟨hp, h.hasName_iff.mpr hne, hfull⟩

end Map

/-! ## A small tree -/

/-- An entry of a directory. -/
def direntBytes (inum : BitVec 16) (name : List UInt8) : List UInt8 :=
  Dirent.toBytes ⟨inum, strncpy name dirsiz⟩

/-- A directory of three entries in the block `b`. -/
def smallDir (b : BitVec 32) : Dinode :=
  { Dinode.zero with
    type := typeDir, nlink := 1, size := 48, addrs := update (fun _ => 0) 0 b }

/-- The block of a directory whose parent is the root, with one name besides `.` and `..`. -/
def smallDirBlock (self : BitVec 16) (name : UInt8) (inum : BitVec 16) : Block :=
  Block.zero.patch 0 (direntBytes self [46] ++ direntBytes 1 [46, 46] ++ direntBytes inum [name])

/-- A disk with the directory `/d`, which is inode 2, and the empty file `/d/f`, which is inode 3.
-/
def treeDisk : Nat → Block :=
  let bitmap : Block := fun k => if k = 0 then 0xFFFFFFFF else if k = 1 then 15 else 0
  let blocks := update (update (update (fun _ => .zero) 33 bitmap)
    34 (smallDirBlock 1 100 2)) 35 (smallDirBlock 2 102 3)
  writeInode smallSb (writeInode smallSb (writeInode smallSb blocks 1 (smallDir 34)) 2
    (smallDir 35)) 3 { Dinode.zero with type := 2, nlink := 1 }

theorem treeDisk_sound : Sound smallSb treeDisk := by
  refine .of_direct smallSb_layout (by decide +kernel) (forall_live_small (by decide +kernel))
    (forall_live_small (by decide +kernel)) (forall_live_small ?_) ?_ (forall_live_small ?_)
  · have hown : ∀ i : Fin 16, (diskInode smallSb treeDisk i).type ≠ 0 → ∀ k : Fin ndirect,
        diskRef smallSb treeDisk i (.direct k) ≠ 0 → ∀ j : Fin 16,
        (diskInode smallSb treeDisk j).type ≠ 0 → ∀ k' : Fin ndirect,
        diskRef smallSb treeDisk i (.direct k) = diskRef smallSb treeDisk j (.direct k') →
          i = j ∧ k = k' := by
      decide +kernel
    intro i hi k hne j hj k' heq
    obtain ⟨hij, hk⟩ := hown i hi k hne ⟨j, hj.1⟩ hj.2 k' heq
    exact ⟨congrArg Fin.val hij, hk⟩
  · have hmarked : ∀ b, b < 40 → 34 ≤ b → diskBit smallSb treeDisk b = true → b = 34 ∨ b = 35 := by
      decide +kernel
    intro b hhi hlo hbit
    rcases hmarked b hhi hlo hbit with rfl | rfl
    · exact ⟨1, by decide +kernel, 0, by decide +kernel⟩
    · exact ⟨2, by decide +kernel, 0, by decide +kernel⟩
  · have hfirst : ∀ i : Fin 16, (diskInode smallSb treeDisk i).type ≠ 0 →
        (diskInode smallSb treeDisk i).size.toNat ≤ 48 ∧ (0 < (diskInode smallSb treeDisk i).size →
          diskRef smallSb treeDisk i (.direct 0) ≠ 0) := by
      decide +kernel
    intro i hi bn hbn
    obtain ⟨hle, hne⟩ := hfirst i hi
    have hbn : bn * 1024 < (diskInode smallSb treeDisk i).size.toNat := hbn
    obtain rfl : bn = 0 := by omega
    exact ⟨by decide, hne (BitVec.lt_def.mpr (by simpa using hbn))⟩

/-- The root of the tree is locked in the entry 0. -/
def dirState : Inodes where
  disk := treeDisk
  entry e := if e = 0 then ⟨1, 1, true, true, smallDir 34⟩ else ⟨0, 0, false, false, .zero⟩

theorem dirState_dir : Dir smallSb dirState 0 := by
  have hone : ∀ e, 0 < (dirState.entry e).ref → e = 0 := by decide
  refine ⟨⟨treeDisk_sound, fun e e' h h' _ => ?_, fun e hpos _ => ?_⟩, Nat.one_pos, rfl, rfl, rfl⟩
  · rw [hone e h, hone e' h']
  · rw [hone e hpos]
    have hroot : diskInode smallSb treeDisk 1 = smallDir 34 := by
      rw [treeDisk, diskInode_writeInode, if_neg (by decide), diskInode_writeInode,
        if_neg (by decide), diskInode_writeInode, if_pos rfl]
    exact ⟨hroot.symm, by decide +kernel⟩

theorem dirState_content : dirState.content 0 =
    direntBytes 1 [46] ++ direntBytes 1 [46, 46] ++ direntBytes 2 [100] := by
  decide +kernel

theorem dirState_room : HasRoom smallSb dirState 0 := by
  refine ⟨by decide, ?_⟩
  have hle : lacking (diskRef smallSb treeDisk 1) (touched 48 16) ≤ (touched 48 16).card :=
    Finset.card_filter_le ..
  have hcard : (touched 48 16).card = 1 := by decide +kernel
  have hfree : freeBlocks smallSb treeDisk = 4 := by decide +kernel
  show lacking (diskRef smallSb treeDisk 1) (touched 48 16) ≤ freeBlocks smallSb treeDisk
  omega

/-- The name `g` is entered into the root; `d` is found before and afterwards. -/
theorem directories_are_maps_new : Finds smallSb dirState 0 [100] (some (2, 32)) ∧
    wp (dirlink smallSb 0 [103] 3) (fun r s' => r = 0 ∧
      Finds smallSb s' 0 [103] (some (3, 48)) ∧ Finds smallSb s' 0 [100] (some (2, 32)))
      (fun _ _ => False) dirState := by
  have hlookup : dirState.answer 0 [100] = some (2, 32) ∧ dirState.answer 0 [103] = none ∧
      (dirState.names 0).firstFree = 3 := by
    rw [answer, answer, names, dirState_content]
    decide +kernel
  have hnot : ¬HasName dirState 0 [103] := fun h => dirState_dir.hasName_iff.mp h hlookup.2.1
  have hkeys : ∀ k k' : Fin 3, ((dirState.names 0).slot k).map Prod.fst =
      ((dirState.names 0).slot k').map Prod.fst → k = k' := by
    rw [names, dirState_content]
    decide +kernel
  have hsize : (dirState.names 0).size = 3 := by
    rw [names, dirState_content]
    rfl
  have hd : (dirState.names 0).Distinct := by
    intro k k' x v v' hk hk' hslot hslot'
    rw [hsize] at hk hk'
    exact congrArg Fin.val (hkeys ⟨k, hk⟩ ⟨k', hk'⟩ (by rw [hslot, hslot']; rfl))
  have hmaps := directories_are_maps smallSb_layout dirState_dir hd [103]
  have hbefore := hmaps.1 [100]
  rw [hlookup.1] at hbefore
  refine ⟨hbefore, ?_⟩
  refine wp_mono (hmaps.2.1 3 (by decide) (by decide) dirState_room) ?_ fun _ _ he => hnot he.2.1
  rintro r s' ⟨-, hnew⟩
  obtain ⟨hr, -, -, hfinds⟩ := hnew hnot
  have hg := hfinds [103]
  have hdname := hfinds [100]
  rw [if_pos (by decide), hlookup.2.2] at hg
  rw [if_neg (by decide), hlookup.1] at hdname
  exact ⟨hr, hg, hdname⟩

end Inodes

end Xv6Paging

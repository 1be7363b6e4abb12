import Xv6Paging.Fs.Itable
import Xv6Paging.Log.Redo

/-!
# What is in a block

A block is 256 words.  The same words are read as the bytes of a file, as 16 inodes, as the bits of
the free map, and as block numbers in an indirect block.  The processor and the format are little
endian.
-/

namespace Xv6Paging

abbrev bsize : Nat := 1024

/-- `IPB`: inodes in a block. -/
abbrev ipb : Nat := 16

/-- `BPB`: bits in a block. -/
abbrev bpb : Nat := 8192

namespace Block

/-- The block of zeroes. -/
def zero : Block := fun _ => 0

/-! ## Bytes -/

/-- A byte of the block. -/
def byte (b : Block) (j : Nat) : UInt8 :=
  UInt8.ofBitVec ((b (Fin.ofNat 256 (j / 4))).extractLsb' (8 * (j % 4)) 8)

/-- The block with the given bytes. -/
def ofBytes (f : Nat → UInt8) : Block := fun k =>
  (f (4 * k + 3)).toBitVec ++ (f (4 * k + 2)).toBitVec ++ (f (4 * k + 1)).toBitVec ++
    (f (4 * k)).toBitVec

/-- `bcopy(p, buf + off, n)`. -/
def patch (b : Block) (off : Nat) (p : List UInt8) : Block :=
  ofBytes fun j => if off ≤ j then p.getD (j - off) (b.byte j) else b.byte j

/-- `m` bytes of the block. -/
def bytes (b : Block) (off m : Nat) : List UInt8 := (List.range m).map fun j => b.byte (off + j)

theorem extract_append {w x y z : BitVec 8} {r : Nat} (hr : r < 4) :
    (w ++ x ++ y ++ z : BitVec 32).extractLsb' (8 * r) 8 =
      if r = 0 then z else if r = 1 then y else if r = 2 then x else w := by
  apply BitVec.eq_of_getLsbD_eq
  intro i hi
  rw [BitVec.getLsbD_extractLsb', BitVec.getLsbD_append, BitVec.getLsbD_append,
    BitVec.getLsbD_append]
  have hcases : r = 0 ∨ r = 1 ∨ r = 2 ∨ r = 3 := by omega
  rcases hcases with rfl | rfl | rfl | rfl
  · simp [hi]
  · simp [hi, show 8 + i - 8 = i by omega]
  · have h2 : ¬8 * 2 + i - 8 < 8 := by omega
    simp [hi, h2, show ¬16 + i < 8 by omega, show 16 + i - 8 - 8 = i by omega]
  · simp [hi, show ¬24 + i < 8 by omega, show ¬24 + i - 8 < 8 by omega,
      show ¬24 + i - 8 - 8 < 8 by omega, show 24 + i - 8 - 8 - 8 = i by omega]

theorem byte_ofBytes (f : Nat → UInt8) {j : Nat} (hj : j < bsize) : (ofBytes f).byte j = f j := by
  have hj : j < 1024 := hj
  have hq : ((Fin.ofNat 256 (j / 4) : Fin 256) : Nat) = j / 4 :=
    Nat.mod_eq_of_lt (by omega)
  unfold byte ofBytes
  rw [extract_append (Nat.mod_lt j (by decide)), hq]
  have hj4 := Nat.div_add_mod j 4
  have hcases : j % 4 = 0 ∨ j % 4 = 1 ∨ j % 4 = 2 ∨ j % 4 = 3 := by omega
  rcases hcases with h | h | h | h <;> rw [h] at hj4 <;> simp [h, hj4]
  rw [show 4 * (j / 4) = j by omega]

theorem byte_patch (b : Block) {off j : Nat} (p : List UInt8) (hj : j < bsize) :
    (b.patch off p).byte j =
      if off ≤ j ∧ j < off + p.length then p.getD (j - off) 0 else b.byte j := by
  rw [patch, byte_ofBytes _ hj]
  by_cases hoff : off ≤ j
  · by_cases hlen : j < off + p.length
    · have hlt : j - off < p.length := by omega
      simp [hoff, hlen, List.getD_eq_getElem?_getD, hlt]
    · have hge : p.length ≤ j - off := by omega
      simp [hoff, hlen, List.getD_eq_getElem?_getD, List.getElem?_eq_none hge]
  · simp [hoff]

/-! ## Inodes -/

/-- The inode in the place `i` of the block. -/
def dinode (b : Block) (i : Nat) : Dinode where
  type := (b (Fin.ofNat 256 (16 * i))).extractLsb' 0 16
  major := (b (Fin.ofNat 256 (16 * i))).extractLsb' 16 16
  minor := (b (Fin.ofNat 256 (16 * i + 1))).extractLsb' 0 16
  nlink := (b (Fin.ofNat 256 (16 * i + 1))).extractLsb' 16 16
  size := b (Fin.ofNat 256 (16 * i + 2))
  addrs k := b (Fin.ofNat 256 (16 * i + 3 + k))

/-- The words of an inode. -/
def dinodeWord (d : Dinode) : Nat → BitVec 32
  | 0 => d.major ++ d.type
  | 1 => d.nlink ++ d.minor
  | 2 => d.size
  | k + 3 => d.addrs (Fin.ofNat 13 k)

/-- An inode is written. -/
def setDinode (b : Block) (i : Nat) (d : Dinode) : Block := fun k =>
  if k.val / 16 = i then dinodeWord d (k % 16) else b k

theorem setDinode_word (b : Block) {i k : Nat} (d : Dinode) (hi : i < ipb) (hk : k < 16) :
    b.setDinode i d (Fin.ofNat 256 (16 * i + k)) = dinodeWord d k := by
  have hi : i < 16 := hi
  have hval : ((Fin.ofNat 256 (16 * i + k) : Fin 256) : Nat) = 16 * i + k :=
    Nat.mod_eq_of_lt (by omega)
  simp only [setDinode, hval]
  rw [if_pos (by omega), show (16 * i + k) % 16 = k by omega]

theorem setDinode_other (b : Block) {i j k : Nat} (d : Dinode) (hj : j < ipb) (hk : k < 16)
    (hne : j ≠ i) :
    b.setDinode i d (Fin.ofNat 256 (16 * j + k)) = b (Fin.ofNat 256 (16 * j + k)) := by
  have hj : j < 16 := hj
  have hval : ((Fin.ofNat 256 (16 * j + k) : Fin 256) : Nat) = 16 * j + k :=
    Nat.mod_eq_of_lt (by omega)
  simp only [setDinode, hval]
  rw [if_neg (by omega)]

theorem extract_low {x y : BitVec 16} : (x ++ y : BitVec 32).extractLsb' 0 16 = y := by
  apply BitVec.eq_of_getLsbD_eq
  intro i hi
  rw [BitVec.getLsbD_extractLsb', BitVec.getLsbD_append]
  simp [hi]

theorem extract_high {x y : BitVec 16} : (x ++ y : BitVec 32).extractLsb' 16 16 = x := by
  apply BitVec.eq_of_getLsbD_eq
  intro i hi
  rw [BitVec.getLsbD_extractLsb', BitVec.getLsbD_append]
  simp [hi, show ¬16 + i < 16 by omega, show 16 + i - 16 = i by omega]

/-- **An inode that was written is read back**, and the others are as they were. -/
theorem dinode_setDinode (b : Block) {i j : Nat} (d : Dinode) (hi : i < ipb) (hj : j < ipb) :
    (b.setDinode i d).dinode j = if j = i then d else b.dinode j := by
  by_cases hji : j = i
  · subst hji
    rw [if_pos rfl]
    have h0 := setDinode_word b d hj (show 0 < 16 by decide)
    have h1 := setDinode_word b d hj (show 1 < 16 by decide)
    have h2 := setDinode_word b d hj (show 2 < 16 by decide)
    rw [Nat.add_zero] at h0
    obtain ⟨type, major, minor, nlink, size, addrs⟩ := d
    simp only [dinode, h0, h1, h2, dinodeWord, extract_low, extract_high]
    congr 1
    funext k
    rw [show 16 * j + 3 + k.val = 16 * j + (k.val + 3) by omega,
      setDinode_word b _ hj (by omega)]
    simp [dinodeWord]
  · rw [if_neg hji]
    have h0 := setDinode_other b d hj (show 0 < 16 by decide) hji
    have h1 := setDinode_other b d hj (show 1 < 16 by decide) hji
    have h2 := setDinode_other b d hj (show 2 < 16 by decide) hji
    rw [Nat.add_zero] at h0
    simp only [dinode, h0, h1, h2]
    congr 1
    funext k
    rw [Nat.add_assoc, setDinode_other b _ hj (by omega) hji]

theorem dinode_zero (i : Nat) : zero.dinode i = Dinode.zero := by
  simp [dinode, zero, Dinode.zero]

/-! ## Bits -/

/-- A bit of the free map. -/
def bit (b : Block) (i : Nat) : Bool := (b (Fin.ofNat 256 (i / 32))).getLsbD (i % 32)

/-- A bit is set or cleared. -/
def setBit (b : Block) (i : Nat) (v : Bool) : Block :=
  let k := Fin.ofNat 256 (i / 32)
  let m : BitVec 32 := 1#32 <<< (i % 32)
  Function.update b k (if v then b k ||| m else b k &&& ~~~m)

theorem bit_setBit (b : Block) {i j : Nat} (v : Bool) (hi : i < bpb) (hj : j < bpb) :
    (b.setBit i v).bit j = if j = i then v else b.bit j := by
  have hi : i < 8192 := hi
  have hj : j < 8192 := hj
  have hqi : ((Fin.ofNat 256 (i / 32) : Fin 256) : Nat) = i / 32 := Nat.mod_eq_of_lt (by omega)
  have hqj : ((Fin.ofNat 256 (j / 32) : Fin 256) : Nat) = j / 32 := Nat.mod_eq_of_lt (by omega)
  have hmask : ∀ r, r < 32 → (1#32 <<< (i % 32)).getLsbD r = decide (r = i % 32) := by
    intro r hr
    rw [BitVec.getLsbD_shiftLeft, BitVec.getLsbD_one]
    by_cases h : r = i % 32
    · simp [h, Nat.mod_lt i (show 0 < 32 by decide)]
    · by_cases hlt : r < i % 32
      · simp [hr, hlt, h]
      · simp [hr, hlt, h, show ¬r - i % 32 = 0 by omega]
  have hr : j % 32 < 32 := Nat.mod_lt _ (by decide)
  unfold bit setBit
  by_cases hk : j / 32 = i / 32
  · have hmod : j % 32 = i % 32 ↔ j = i := by omega
    rw [hk, Function.update_self]
    cases v
    · simp only [Bool.false_eq_true, if_false, BitVec.getLsbD_and, BitVec.getLsbD_not, hmask _ hr,
        hr, decide_true, Bool.true_and]
      by_cases hji : j = i
      · simp [hji]
      · simp [hji, hmod]
    · simp only [if_true, BitVec.getLsbD_or, hmask _ hr]
      by_cases hji : j = i
      · simp [hji]
      · simp [hji, hmod]
  · have hne : (Fin.ofNat 256 (j / 32) : Fin 256) ≠ Fin.ofNat 256 (i / 32) := by
      intro heq
      have := congrArg Fin.val heq
      rw [hqi, hqj] at this
      exact hk this
    rw [Function.update_of_ne hne, if_neg (by rintro rfl; exact hk rfl)]

end Block

end Xv6Paging

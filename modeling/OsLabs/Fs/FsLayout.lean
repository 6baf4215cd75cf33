import Mathlib.Data.Fin.Tuple.Basic
import OsLabs.Cache.CacheCore
import OsLabs.Foundation.Ownership

/-!
The on-disk format of `xv6/fs.h`: the super block, the records of the inode blocks and the
bits of the free map, as bytes of numbered blocks.
-/

namespace OsLabs.Fs

open Function OsLabs.ByteField
open OsLabs.Cache (fsSize)
open OsLabs.Log (logSize)

def bsize : Nat := 512

def ndirect : Nat := 12

def nindirect : Nat := bsize / 4

def maxFile : Nat := ndirect + nindirect

def ipb : Nat := bsize / 64

def bpb : Nat := bsize * 8

def dirsiz : Nat := 14

def tDir : BitVec 16 := 1

def tFile : BitVec 16 := 2

def tDev : BitVec 16 := 3

theorem ofNat_toNat_mod {bits bound : Nat} (power : bound = 2 ^ bits) (value : BitVec bits) :
    BitVec.ofNat bits (value.toNat % bound) = value := by
  rw [power, Nat.mod_eq_of_lt value.isLt, BitVec.ofNat_toNat, BitVec.setWidth_eq]

structure Dinode where
  type : BitVec 16
  major : BitVec 16
  minor : BitVec 16
  nlink : BitVec 16
  size : BitVec 32
  addrs : Fin (ndirect + 1) → BitVec 32
deriving DecidableEq

namespace Dinode

def zero : Dinode := ⟨0, 0, 0, 0, 0, fun _ => 0⟩

def shorts (d : Dinode) : List Nat := [d.type.toNat, d.major.toNat, d.minor.toNat, d.nlink.toNat]

def words (d : Dinode) : List Nat := List.ofFn fun i => (d.addrs i).toNat

def encode (d : Dinode) (bytes : Bytes) (offset : Nat) : Bytes :=
  storeAll 4 (store 4 (storeAll 2 bytes offset d.shorts) (offset + 8) d.size.toNat) (offset + 12)
    d.words

def decode (bytes : Bytes) (offset : Nat) : Dinode where
  type := BitVec.ofNat 16 (load 2 bytes offset)
  major := BitVec.ofNat 16 (load 2 bytes (offset + 2))
  minor := BitVec.ofNat 16 (load 2 bytes (offset + 4))
  nlink := BitVec.ofNat 16 (load 2 bytes (offset + 6))
  size := BitVec.ofNat 32 (load 4 bytes (offset + 8))
  addrs := fun i => BitVec.ofNat 32 (load 4 bytes (offset + 12 + 4 * i))

theorem length_shorts (d : Dinode) : d.shorts.length = 4 := rfl

theorem length_words (d : Dinode) : d.words.length = 13 := List.length_ofFn

theorem encode_outside (d : Dinode) (bytes : Bytes) (offset : Nat) {index : Nat}
    (outside : index < offset ∨ offset + 64 ≤ index) : d.encode bytes offset index = bytes index := by
  rw [encode, storeAll_outside _ _ _ _ (by rw [length_words]; omega), store_outside _ _ _ _ (by omega),
    storeAll_outside _ _ _ _ (by rw [length_shorts]; omega)]

theorem load_encode_short (d : Dinode) (bytes : Bytes) (offset : Nat) {index : Nat}
    (bound : index < 4) :
    load 2 (d.encode bytes offset) (offset + 2 * index) =
      (d.shorts.get ⟨index, bound⟩) % 256 ^ 2 := by
  rw [encode, load_storeAll_apart _ _ _ _ (by omega), load_store_apart _ _ _ _ (by omega)]
  exact load_storeAll 2 bytes offset bound

theorem load_encode_size (d : Dinode) (bytes : Bytes) (offset : Nat) :
    load 4 (d.encode bytes offset) (offset + 8) = d.size.toNat % 256 ^ 4 := by
  rw [encode, load_storeAll_apart _ _ _ _ (by omega), load_store]

theorem load_encode_addr (d : Dinode) (bytes : Bytes) (offset : Nat) (i : Fin (ndirect + 1)) :
    load 4 (d.encode bytes offset) (offset + 12 + 4 * i) = (d.addrs i).toNat % 256 ^ 4 := by
  have bound : i.val < d.words.length := d.length_words ▸ i.isLt
  rw [encode, load_storeAll 4 _ _ bound]
  simp only [words, List.getElem_ofFn, Fin.eta]

@[simp] theorem decode_encode (d : Dinode) (bytes : Bytes) (offset : Nat) :
    decode (d.encode bytes offset) offset = d := by
  have short {index : Nat} (bound : index < 4) := load_encode_short d bytes offset bound
  rw [decode, mk.injEq]
  refine ⟨?_, ?_, ?_, ?_, ?_, funext fun i => ?_⟩
  · exact (congrArg _ (short (show 0 < 4 by decide))).trans (ofNat_toNat_mod rfl _)
  · exact (congrArg _ (short (show 1 < 4 by decide))).trans (ofNat_toNat_mod rfl _)
  · exact (congrArg _ (short (show 2 < 4 by decide))).trans (ofNat_toNat_mod rfl _)
  · exact (congrArg _ (short (show 3 < 4 by decide))).trans (ofNat_toNat_mod rfl _)
  · exact (congrArg _ (load_encode_size d bytes offset)).trans (ofNat_toNat_mod rfl _)
  · exact (congrArg _ (load_encode_addr d bytes offset i)).trans (ofNat_toNat_mod rfl _)

theorem decode_congr {bytes other : Bytes} {offset : Nat}
    (same : ∀ index, offset ≤ index → index < offset + 64 → bytes index = other index) :
    decode bytes offset = decode other offset := by
  have loads {width start : Nat} (lower : offset ≤ start) (upper : start + width ≤ offset + 64) :
      load width bytes start = load width other start :=
    load_congr fun index low high => same index (by omega) (by omega)
  rw [decode, decode, mk.injEq]
  refine ⟨?_, ?_, ?_, ?_, ?_, funext fun i => ?_⟩
  · rw [loads (by omega) (by omega)]
  · rw [loads (by omega) (by omega)]
  · rw [loads (by omega) (by omega)]
  · rw [loads (by omega) (by omega)]
  · rw [loads (by omega) (by omega)]
  · have bound : i.val < 13 := i.isLt
    rw [loads (by omega) (by omega)]

theorem decode_zero {bytes : Bytes} {offset : Nat}
    (zero : ∀ index, offset ≤ index → index < offset + 64 → bytes index = 0) :
    decode bytes offset = Dinode.zero := by
  rw [decode_congr zero, decode]
  simp only [load_zero]
  rfl

end Dinode

structure Superblock where
  size : Nat
  nblocks : Nat
  ninodes : Nat
  inodestart : Nat
  bmapstart : Nat
deriving DecidableEq

namespace Superblock

def iblock (sb : Superblock) (inum : Nat) : Nat := inum / ipb + sb.inodestart

def bblock (sb : Superblock) (b : Nat) : Nat := b / bpb + sb.bmapstart

def nmeta (sb : Superblock) : Nat := sb.size - sb.nblocks

def inodeCount (sb : Superblock) : Nat := (sb.bmapstart - sb.inodestart) * ipb

end Superblock

/-- A super block whose areas lie one after the other, as `mkfs` lays them out. -/
structure Layout extends Superblock where
  inodesFit : ninodes ≤ (bmapstart - inodestart) * ipb
  inodesBelow : inodestart ≤ bmapstart
  bitmapFits : bmapstart + (size - 1) / bpb < size - nblocks
  sizeFits : size < 2 ^ 32

def ninodes : Nat := 200

def nbitmap : Nat := fsSize / (bsize * 8) + 1

def ninodeblocks : Nat := ninodes / ipb + 1

/-- The super block that `mkfs.c` writes. -/
def Layout.mkfs : Layout where
  size := fsSize
  nblocks := fsSize - (2 + logSize + ninodeblocks + nbitmap)
  ninodes
  inodestart := 2 + logSize
  bmapstart := 2 + logSize + ninodeblocks
  inodesFit := by decide
  inodesBelow := by decide
  bitmapFits := by decide
  sizeFits := by decide

abbrev Disk := Nat → Bytes

variable (sb : Layout) (disk : Disk) {inum other b : Nat}

def Layout.inode (sb : Layout) (disk : Disk) (inum : Nat) : Dinode :=
  Dinode.decode (disk (sb.iblock inum)) (inum % ipb * 64)

def Layout.setInode (sb : Layout) (disk : Disk) (inum : Nat) (d : Dinode) : Disk :=
  update disk (sb.iblock inum) (d.encode (disk (sb.iblock inum)) (inum % ipb * 64))

def Layout.used (sb : Layout) (disk : Disk) (b : Nat) : Bool :=
  Bitmap.test (disk (sb.bblock b)) (b % bpb)

namespace Layout

theorem iblock_lt (bound : inum < sb.inodeCount) : sb.iblock inum < sb.bmapstart := by
  have below := sb.inodesBelow
  rw [Superblock.inodeCount] at bound
  have quotient := Nat.div_lt_of_lt_mul (Nat.mul_comm _ _ ▸ bound)
  rw [Superblock.iblock]
  omega

theorem bblock_lt (bound : b < sb.size) : sb.bblock b < sb.nmeta := by
  have last : b / bpb ≤ (sb.size - 1) / bpb := Nat.div_le_div_right (by omega)
  have fits := sb.bitmapFits
  rw [Superblock.bblock, Superblock.nmeta]
  omega

theorem bmapstart_lt_nmeta : sb.bmapstart < sb.nmeta :=
  Nat.lt_of_le_of_lt (Nat.le_add_right _ _) sb.bitmapFits

theorem bmapstart_le_bblock (b : Nat) : sb.bmapstart ≤ sb.bblock b := Nat.le_add_left _ _

theorem iblock_lt_bblock (b : Nat) (bound : inum < sb.inodeCount) : sb.iblock inum < sb.bblock b :=
  Nat.lt_of_lt_of_le (sb.iblock_lt bound) (sb.bmapstart_le_bblock b)

theorem iblock_lt_nmeta (bound : inum < sb.inodeCount) : sb.iblock inum < sb.nmeta :=
  (sb.iblock_lt bound).trans sb.bmapstart_lt_nmeta

theorem inode_congr {disk later : Disk} (same : later (sb.iblock inum) = disk (sb.iblock inum)) :
    sb.inode later inum = sb.inode disk inum := by
  rw [inode, inode, same]

theorem used_congr {disk later : Disk} (same : later (sb.bblock b) = disk (sb.bblock b)) :
    sb.used later b = sb.used disk b := by
  rw [used, used, same]

theorem inode_setInode (inum other : Nat) (d : Dinode) :
    sb.inode (sb.setInode disk inum d) other = update (sb.inode disk) inum d other := by
  by_cases same : other = inum
  · subst same
    rw [update_self, inode, setInode, update_self, Dinode.decode_encode]
  rw [update_of_ne same, inode, inode, setInode]
  by_cases block : sb.iblock other = sb.iblock inum
  · rw [block, update_self]
    apply Dinode.decode_congr
    intro index lower upper
    apply Dinode.encode_outside
    simp only [Superblock.iblock, ipb, bsize] at block lower upper ⊢
    omega
  · rw [update_of_ne block]

theorem setInode_outside (d : Dinode) {block : Nat} (outside : block ≠ sb.iblock inum) :
    sb.setInode disk inum d block = disk block := update_of_ne outside _ _

theorem used_flip {b : Nat} {bytes : Bytes} {value : Bool}
    (flips : ∀ index, Bitmap.test bytes index =
      if index = b % bpb then value else Bitmap.test (disk (sb.bblock b)) index) (other : Nat) :
    sb.used (update disk (sb.bblock b) bytes) other =
      update (sb.used disk) b value other := by
  by_cases same : other = b
  · subst same
    rw [used, update_self, update_self, flips, if_pos rfl]
  rw [update_of_ne same, used, used]
  by_cases block : sb.bblock other = sb.bblock b
  · have apart : other % bpb ≠ b % bpb := by
      simp only [Superblock.bblock, bpb, bsize] at block ⊢
      omega
    rw [block, update_self, flips, if_neg apart]
  · rw [update_of_ne block]

end Layout

end OsLabs.Fs

import Xv6.Vm
import Xv6.Lib.Bytes

/-!
# Xv6.Fs

The file system below the inode cache (`fs.c`): the layout of the disk, the
block allocator, and the content of an inode.

There is one device.  `Disk.block` is what `bread` returns for a block.  An inode
is passed by value; where the source changes `*ip`, the model returns the new value.
-/

namespace Xv6

open Lib Function

namespace Fs

/-! ## Constants (`fs.h`, `stat.h`, `param.h`) -/

abbrev ROOTINO : Nat := 1
abbrev BSIZE : Nat := 512
abbrev NDIRECT : Nat := 11

theorem direct_lt {i : Nat} (h : i < NDIRECT) : i < NDIRECT + 2 := by omega

theorem directEntry_lt (i : Fin NDIRECT) : i.val < NDIRECT + 2 := direct_lt i.isLt

theorem indirect_lt : NDIRECT < NDIRECT + 2 := by decide

theorem double_lt : NDIRECT + 1 < NDIRECT + 2 := by decide

/-- block numbers in an index block -/
abbrev NINDIRECT : Nat := BSIZE / 4
abbrev NDBINDIRECT : Nat := BSIZE / 4 * BSIZE / 4
abbrev MAXFILE : Nat := NDIRECT + NINDIRECT + NDBINDIRECT
/-- inodes per block -/
abbrev IPB : Nat := BSIZE / 64
/-- bitmap bits per block -/
abbrev BPB : Nat := BSIZE * 8
abbrev NDEV : Nat := 10
abbrev T_DIR : Int16 := 1
abbrev T_FILE : Int16 := 2
abbrev T_DEV : Int16 := 3

/-- The panics of `fs.c`, and the one of `log_write` on a full log. -/
inductive FsPanic where
  /-- balloc: out of blocks -/
  | balloc
  /-- freeing free block -/
  | bfree
  /-- ialloc: no inodes -/
  | ialloc
  /-- bmap: out of range -/
  | bmap
  /-- too big a transaction -/
  | logWrite
  deriving DecidableEq, Repr

/-! ## On-disk structures -/

/-- `struct superblock` -/
structure Superblock where
  size : Nat
  nblocks : Nat
  ninodes : Nat
  nlog : Nat
  logstart : Nat
  inodestart : Nat
  bmapstart : Nat
  deriving DecidableEq, Repr

/-- `struct dinode` -/
@[ext] structure Dinode where
  type : Int16
  major : Int16
  minor : Int16
  nlink : Int16
  size : Nat
  addrs : Fin (NDIRECT + 2) → Nat

/-- Field by field, so that it evaluates on block numbers read from the disk. -/
instance : DecidableEq Dinode := fun _ _ => decidable_of_iff _ Dinode.ext_iff.symm

/-- The `short` at `off`. -/
def getShort (b : Bytes) (off : Nat) : Int16 := Int16.ofNat (getLE b off 2)

def putShort (b : Bytes) (off : Nat) (v : Int16) : Bytes := putLE b off 2 v.toUInt16.toNat

/-- Entry `j` of an index block. -/
def getWord (b : Bytes) (j : Nat) : Nat := getLE b (4 * j) 4

def putWord (b : Bytes) (j v : Nat) : Bytes := putLE b (4 * j) 4 v

/-- The superblock in a block. -/
def getSuperblock (b : Bytes) : Superblock where
  size := getWord b 0
  nblocks := getWord b 1
  ninodes := getWord b 2
  nlog := getWord b 3
  logstart := getWord b 4
  inodestart := getWord b 5
  bmapstart := getWord b 6

/-- The inode at `off`. -/
def getDinode (b : Bytes) (off : Nat) : Dinode where
  type := getShort b off
  major := getShort b (off + 2)
  minor := getShort b (off + 4)
  nlink := getShort b (off + 6)
  size := getLE b (off + 8) 4
  addrs := fun i => getLE b (off + 12 + 4 * i) 4

def putDinode (b : Bytes) (off : Nat) (d : Dinode) : Bytes :=
  let b := putShort b off d.type
  let b := putShort b (off + 2) d.major
  let b := putShort b (off + 4) d.minor
  let b := putShort b (off + 6) d.nlink
  let b := putLE b (off + 8) 4 d.size
  (List.finRange (NDIRECT + 2)).foldl (fun b i => putLE b (off + 12 + 4 * i.val) 4 (d.addrs i)) b

/-- Block containing inode `i` -/
def IBLOCK (i : Nat) (sb : Superblock) : Nat := i / IPB + sb.inodestart

/-- Block of the free map containing the bit for block `b` -/
def BBLOCK (b : Nat) (sb : Superblock) : Nat := b / BPB + sb.bmapstart

/-! ## The disk -/

/-- A device driver: the results of its `read` and `write`, if it has them. -/
structure Devsw where
  read : Option (Nat → Int × Bytes)
  write : Option (Nat → Int)

/-- The disk, with the global `sb` and the table of device drivers. -/
structure Disk where
  block : Nat → Bytes
  sb : Superblock
  devsw : Nat → Devsw
  /-- The blocks of the calls of `log_write` since the last commit, the last one
  first. -/
  logged : List Nat

/-- The in-memory copy of an inode.  `valid` is the flag `I_VALID`. -/
structure Inode extends Dinode where
  dev : Nat
  inum : Nat
  ref : Int
  locked : Bool
  valid : Bool
  deriving DecidableEq

namespace Disk

/-- Change a buffer and call `log_write`, whose test of the log is made by
`inTransaction` for all calls together. -/
def logWrite (fs : Disk) (b : Nat) (data : Bytes) : Disk :=
  { fs with block := update fs.block b data, logged := b :: fs.logged }

/-- `log_write` finds room in the log after the calls `before`; it wants room also
for a block that is in the log already. -/
def logRoom (sb : Superblock) (before : List Nat) : Bool :=
  before.dedup.length < LOGSIZE && before.dedup.length < sb.nlog - 1

/-- No call of `log_write` has found the log full. -/
def admits (sb : Superblock) : List Nat → Bool
  | [] => true
  | _ :: before => logRoom sb before && admits sb before

/-- `readsb` -/
def readsb (fs : Disk) : Superblock := getSuperblock (fs.block 1)

/-- `bzero` -/
def bzero (fs : Disk) (bno : Nat) : Disk := fs.logWrite bno fun _ => 0

/-! ## Blocks -/

/-- `1 << (bi % 8)` -/
def mask (bi : Nat) : UInt8 := 1 <<< UInt8.ofNat (bi % 8)

/-- The bit of block `b` in the free map is set. -/
def marked (fs : Disk) (b : Nat) : Bool :=
  let bi := b % BPB
  fs.block (BBLOCK b fs.sb) (bi / 8) &&& mask bi != 0

/-- Change the byte of the free map with the bit of block `b`. -/
def setMap (fs : Disk) (b : Nat) (f : UInt8 → UInt8 → UInt8) : Disk :=
  let bi := b % BPB
  let bp := fs.block (BBLOCK b fs.sb)
  fs.logWrite (BBLOCK b fs.sb) (update bp (bi / 8) (f (bp (bi / 8)) (mask bi)))

/-- `balloc`.  The two loops of the source visit the blocks in order. -/
def balloc (fs : Disk) : Except FsPanic (Disk × Nat) :=
  match (List.range fs.sb.size).find? fun b => !fs.marked b with
  | none => .error .balloc
  | some b => .ok ((fs.setMap b (· ||| ·)).bzero b, b)

/-- `bfree`.  It reads the superblock again. -/
def bfree (fs : Disk) (b : Nat) : Except FsPanic Disk :=
  let fs := { fs with sb := fs.readsb }
  if fs.marked b = false then .error .bfree
  else .ok (fs.setMap b fun x m => x &&& ~~~m)

/-! ## Inodes -/

/-- Inode `inum` on the disk. -/
def dinode (fs : Disk) (inum : Nat) : Dinode :=
  getDinode (fs.block (IBLOCK inum fs.sb)) (inum % IPB * 64)

/-- Write inode `inum` to the disk. -/
def setDinode (fs : Disk) (inum : Nat) (d : Dinode) : Disk :=
  fs.logWrite (IBLOCK inum fs.sb) (putDinode (fs.block (IBLOCK inum fs.sb)) (inum % IPB * 64) d)

/-- `iupdate` -/
def iupdate (fs : Disk) (ip : Inode) : Disk := fs.setDinode ip.inum ip.toDinode

/-- `ialloc` up to its `iget`: the inode number. -/
def ialloc (fs : Disk) (type : Int16) : Except FsPanic (Disk × Nat) :=
  match (List.range' 1 (fs.sb.ninodes - 1)).find? fun inum => (fs.dinode inum).type = 0 with
  | none => .error .ialloc
  | some inum => .ok (fs.setDinode inum
      { type := type, major := 0, minor := 0, nlink := 0, size := 0, addrs := fun _ => 0 }, inum)

/-! ## The block map -/

/-- `ip->addrs[i]`, allocated if it is 0. -/
def inodeEntry (fs : Disk) (ip : Inode) (i : Fin (NDIRECT + 2)) :
    Except FsPanic (Disk × Inode × Nat) :=
  if ip.addrs i = 0 then do
    let (fs, addr) ← fs.balloc
    return (fs, { ip with addrs := update ip.addrs i addr }, addr)
  else .ok (fs, ip, ip.addrs i)

/-- Entry `j` of the index block `b`, allocated if it is 0. -/
def indexEntry (fs : Disk) (b j : Nat) : Except FsPanic (Disk × Nat) :=
  if getWord (fs.block b) j = 0 then do
    let (fs, addr) ← fs.balloc
    return (fs.logWrite b (putWord (fs.block b) j addr), addr)
  else .ok (fs, getWord (fs.block b) j)

/-- `bmap` -/
def bmap (fs : Disk) (ip : Inode) (bn : Nat) : Except FsPanic (Disk × Inode × Nat) :=
  if h : bn < NDIRECT then fs.inodeEntry ip ⟨bn, direct_lt h⟩
  else
    let bn := bn - NDIRECT
    if bn < NINDIRECT then do
      let (fs, ip, addr) ← fs.inodeEntry ip ⟨NDIRECT, indirect_lt⟩
      let (fs, addr) ← fs.indexEntry addr bn
      return (fs, ip, addr)
    else
      let bn := bn - NINDIRECT
      if bn < NDBINDIRECT then do
        let (fs, ip, addr) ← fs.inodeEntry ip ⟨NDIRECT + 1, double_lt⟩
        let (fs, addr) ← fs.indexEntry addr (bn / NINDIRECT)
        let (fs, addr) ← fs.indexEntry addr (bn % NINDIRECT)
        return (fs, ip, addr)
      else .error .bmap

/-! ## Truncation -/

/-- Free the block of entry `i` of the inode and forget it. -/
def truncAddr (s : Disk × Inode) (i : Fin (NDIRECT + 2)) : Except FsPanic (Disk × Inode) := do
  let fs ← s.1.bfree (s.2.addrs i)
  return (fs, { s.2 with addrs := update s.2.addrs i 0 })

/-- One turn of the loop over the direct blocks. -/
def truncDirect (s : Disk × Inode) (i : Fin NDIRECT) : Except FsPanic (Disk × Inode) :=
  if s.2.addrs ⟨i, directEntry_lt i⟩ ≠ 0 then truncAddr s ⟨i, directEntry_lt i⟩ else .ok s

/-- One turn of a loop over the index block `b`: free the block of entry `j`. -/
def truncWord (b : Nat) (fs : Disk) (j : Fin NINDIRECT) : Except FsPanic Disk :=
  if getWord (fs.block b) j ≠ 0 then fs.bfree (getWord (fs.block b) j) else .ok fs

/-- The blocks of entry `NDIRECT` of the inode. -/
def truncIndirect (s : Disk × Inode) : Except FsPanic (Disk × Inode) :=
  let i : Fin (NDIRECT + 2) := ⟨NDIRECT, indirect_lt⟩
  if s.2.addrs i ≠ 0 then do
    let fs ← forEach (truncWord (s.2.addrs i)) (List.finRange NINDIRECT) s.1
    truncAddr (fs, s.2) i
  else .ok s

/-- One turn of the loop over the double-indirect block `d`.  The entry is
cleared in the buffer only: there is no `log_write`. -/
def truncSecond (d : Nat) (fs : Disk) (j : Fin NINDIRECT) : Except FsPanic Disk :=
  let b := getWord (fs.block d) j
  if b ≠ 0 then do
    let fs ← forEach (truncWord b) (List.finRange NINDIRECT) fs
    let fs ← fs.bfree b
    return { fs with block := update fs.block d (putWord (fs.block d) j 0) }
  else .ok fs

/-- The blocks of entry `NDIRECT + 1` of the inode. -/
def truncDouble (s : Disk × Inode) : Except FsPanic (Disk × Inode) :=
  let i : Fin (NDIRECT + 2) := ⟨NDIRECT + 1, double_lt⟩
  if s.2.addrs i ≠ 0 then do
    let fs ← forEach (truncSecond (s.2.addrs i)) (List.finRange NINDIRECT) s.1
    truncAddr (fs, s.2) i
  else .ok s

/-- `itrunc` -/
def itrunc (fs : Disk) (ip : Inode) : Except FsPanic (Disk × Inode) := do
  let s ← forEach truncDirect (List.finRange NDIRECT) (fs, ip)
  let s ← truncIndirect s
  let (fs, ip) ← truncDouble s
  let ip := { ip with size := 0 }
  return (fs.iupdate ip, ip)

/-! ## Reading and writing -/

/-- The loop of `readi`.  Every turn copies at least one byte, so `n` turns are
enough. -/
def readLoop (fs : Disk) (ip : Inode) (dst : Bytes) (tot off n : Nat) :
    Nat → Except FsPanic (Disk × Inode × Bytes)
  | 0 => .ok (fs, ip, dst)
  | fuel + 1 =>
    if tot < n then do
      let (fs, ip, addr) ← fs.bmap ip (off / BSIZE)
      let m := min (n - tot) (BSIZE - off % BSIZE)
      let dst := copyTo dst tot (fun i => fs.block addr (off % BSIZE + i)) m
      readLoop fs ip dst (tot + m) (off + m) n fuel
    else .ok (fs, ip, dst)

/-- `readi(ip, dst, off, n)` -/
def readi (fs : Disk) (ip : Inode) (dst : Bytes) (off n : Nat) :
    Except FsPanic (Disk × Inode × Int × Bytes) :=
  if ip.type = T_DEV then
    if ip.major < 0 ∨ ip.major ≥ Int16.ofNat NDEV then .ok (fs, ip, -1, dst)
    else
      match (fs.devsw ip.major.toNatClampNeg).read with
      | none => .ok (fs, ip, -1, dst)
      | some read => .ok (fs, ip, read n)
  else if off > ip.size ∨ uint (off + n) < off then .ok (fs, ip, -1, dst)
  else do
    let n := if uint (off + n) > ip.size then ip.size - off else n
    let (fs, ip, dst) ← fs.readLoop ip dst 0 off n n
    return (fs, ip, n, dst)

/-- The loop of `writei`: the new offset is returned as well. -/
def writeLoop (fs : Disk) (ip : Inode) (src : Bytes) (tot off n : Nat) :
    Nat → Except FsPanic (Disk × Inode × Nat)
  | 0 => .ok (fs, ip, off)
  | fuel + 1 =>
    if tot < n then do
      let (fs, ip, addr) ← fs.bmap ip (off / BSIZE)
      let m := min (n - tot) (BSIZE - off % BSIZE)
      let data := copyTo (fs.block addr) (off % BSIZE) (fun i => src (tot + i)) m
      writeLoop (fs.logWrite addr data) ip src (tot + m) (off + m) n fuel
    else .ok (fs, ip, off)

/-- `writei(ip, src, off, n)` -/
def writei (fs : Disk) (ip : Inode) (src : Bytes) (off n : Nat) :
    Except FsPanic (Disk × Inode × Int) :=
  if ip.type = T_DEV then
    if ip.major < 0 ∨ ip.major ≥ Int16.ofNat NDEV then .ok (fs, ip, -1)
    else
      match (fs.devsw ip.major.toNatClampNeg).write with
      | none => .ok (fs, ip, -1)
      | some write => .ok (fs, ip, write n)
  else if off > ip.size ∨ uint (off + n) < off then .ok (fs, ip, -1)
  else if uint (off + n) > MAXFILE * BSIZE then .ok (fs, ip, -1)
  else do
    let (fs, ip, off) ← fs.writeLoop ip src 0 off n n
    if n > 0 ∧ off > ip.size then
      let ip := { ip with size := off }
      return (fs.iupdate ip, ip, n)
    else return (fs, ip, n)

end Disk
end Fs
end Xv6

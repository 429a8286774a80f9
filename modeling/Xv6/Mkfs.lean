import Xv6.Fs

/-!
# Xv6.Mkfs

The program that builds the initial file system (`mkfs.c`).  It has its own
allocator, which hands out the blocks in order, and its own version of the block
map, for the direct blocks and the indirect block.

The host stores numbers in intel order, so `xshort` and `xint` do nothing.
-/

namespace Xv6

open Function

open Lib Fs

namespace Mkfs

/-! ## Layout -/

abbrev NINODES : Nat := 200
abbrev nbitmap : Nat := FSSIZE / (BSIZE * 8) + 1
abbrev ninodeblocks : Nat := NINODES / IPB + 1
abbrev nlog : Nat := LOGSIZE
/-- Number of meta blocks (boot, sb, nlog, inode, bitmap) -/
abbrev nmeta : Nat := 2 + nlog + ninodeblocks + nbitmap
/-- Number of data blocks -/
abbrev nblocks : Nat := FSSIZE - nmeta

def sb : Superblock where
  size := FSSIZE
  nblocks := nblocks
  ninodes := NINODES
  nlog := nlog
  logstart := 2
  inodestart := 2 + nlog
  bmapstart := 2 + nlog + ninodeblocks

/-- How `mkfs` ends early. -/
inductive Abort where
  /-- a failed `assert` -/
  | assert
  /-- `rsect` finds no sector -/
  | read
  /-- an index outside the array `indirect` -/
  | indirect
  deriving DecidableEq, Repr

/-- The image file and the counters `freeinode` and `freeblock`. -/
structure Image where
  sect : Nat → Bytes
  freeinode : Nat
  freeblock : Nat

namespace Image

/-! ## Sectors and inodes -/

/-- `wsect` -/
def wsect (im : Image) (sec : Nat) (buf : Bytes) : Image :=
  { im with sect := update im.sect sec buf }

/-- `rsect`.  The image has `FSSIZE` sectors. -/
def rsect (im : Image) (sec : Nat) : Except Abort Bytes :=
  if sec < FSSIZE then .ok (im.sect sec) else .error .read

/-- `winode` -/
def winode (im : Image) (inum : Nat) (ip : Dinode) : Except Abort Image := do
  let buf ← im.rsect (IBLOCK inum sb)
  return im.wsect (IBLOCK inum sb) (putDinode buf (inum % IPB * 64) ip)

/-- `rinode` -/
def rinode (im : Image) (inum : Nat) : Except Abort Dinode := do
  let buf ← im.rsect (IBLOCK inum sb)
  return getDinode buf (inum % IPB * 64)

/-- `ialloc` -/
def ialloc (im : Image) (type : Int16) : Except Abort (Image × Nat) := do
  let inum := im.freeinode
  let im ← { im with freeinode := inum + 1 }.winode inum
    { type := type, major := 0, minor := 0, nlink := 1, size := 0, addrs := fun _ => 0 }
  return (im, inum)

/-- The block `balloc` writes: a bit for each of the first `used` blocks. -/
def bitmap (used : Nat) : Bytes :=
  (List.range used).foldl
    (fun buf i => update buf (i / 8) (buf (i / 8) ||| Disk.mask i)) fun _ => 0

/-- `balloc` -/
def balloc (im : Image) (used : Nat) : Except Abort Image :=
  if used < BSIZE * 8 then .ok (im.wsect sb.bmapstart (bitmap used)) else .error .assert

/-! ## Appending to a file -/

/-- `din.addrs[i]`, set to the next block if it is 0. -/
def addr (im : Image) (din : Dinode) (i : Fin (NDIRECT + 2)) : Image × Dinode :=
  if din.addrs i = 0 then
    ({ im with freeblock := im.freeblock + 1 },
      { din with addrs := update din.addrs i im.freeblock })
  else (im, din)

/-- The sector of block `fbn` of a file, taken if there is none. -/
def sector (im : Image) (din : Dinode) (fbn : Nat) : Except Abort (Image × Dinode × Nat) :=
  if h : fbn < NDIRECT then
    let (im, din) := im.addr din ⟨fbn, direct_lt h⟩
    .ok (im, din, din.addrs ⟨fbn, direct_lt h⟩)
  else do
    let (im, din) := im.addr din ⟨NDIRECT, indirect_lt⟩
    let x := din.addrs ⟨NDIRECT, indirect_lt⟩
    let indirect ← im.rsect x
    if NINDIRECT ≤ fbn - NDIRECT then .error .indirect
    else if getWord indirect (fbn - NDIRECT) = 0 then
      let im' := { im with freeblock := im.freeblock + 1 }
      return (im'.wsect x (putWord indirect (fbn - NDIRECT) im.freeblock), din, im.freeblock)
    else return (im, din, getWord indirect (fbn - NDIRECT))

/-- The loop of `iappend`.  Every turn appends at least one byte, so `n` turns are
enough. -/
def appendLoop (im : Image) (din : Dinode) (p : Bytes) (off n : Nat) :
    Nat → Except Abort (Image × Dinode × Nat)
  | 0 => .ok (im, din, off)
  | fuel + 1 =>
    if n > 0 then
      let fbn := off / BSIZE
      if fbn < MAXFILE then do
        let (im, din, x) ← im.sector din fbn
        let n1 := min n ((fbn + 1) * BSIZE - off)
        let buf ← im.rsect x
        let im := im.wsect x (copyTo buf (off - fbn * BSIZE) p n1)
        im.appendLoop din (fun i => p (n1 + i)) (off + n1) (n - n1) fuel
      else .error .assert
    else .ok (im, din, off)

/-- `iappend` -/
def iappend (im : Image) (inum : Nat) (p : Bytes) (n : Nat) : Except Abort Image := do
  let din ← im.rinode inum
  let (im, din, off) ← im.appendLoop din p din.size n n
  im.winode inum { din with size := off }

/-- The loop over what the calls of `read` return. -/
def appendAll (im : Image) (inum : Nat) (reads : List (List UInt8)) : Except Abort Image :=
  forEach (fun im buf => im.iappend inum (fun i => buf.getD i 0) buf.length) reads im

end Image

/-! ## main -/

/-- The image before the first inode: the superblock and zeros. -/
def blank : Image where
  sect sec :=
    if sec = 1 then
      [sb.size, sb.nblocks, sb.ninodes, sb.nlog, sb.logstart, sb.inodestart, sb.bmapstart].zipIdx.foldl
        (fun buf w => putWord buf w.2 w.1) fun _ => 0
    else fun _ => 0
  freeinode := 1
  freeblock := nmeta

/-- The bytes of a `struct dirent` with a name. -/
def dirent (inum : Nat) (name : List UInt8) : Bytes := fun i =>
  if i < 2 then putLE (fun _ => 0) 0 2 inum i else name.getD (i - 2) 0

/-- A host file: its name and what the successive calls of `read` return. -/
structure HostFile where
  name : List UInt8
  reads : List (List UInt8)

/-- The name in the file system: without a leading `_`. -/
def HostFile.entryName (f : HostFile) : List UInt8 :=
  match f.name with
  | 95 :: rest => rest
  | name => name

/-- One turn of the loop over the arguments. -/
def addFile (rootino : Nat) (im : Image) (f : HostFile) : Except Abort Image :=
  -- there is no '/' in the name
  if 47 ∈ f.name then .error .assert
  else do
    let (im, inum) ← im.ialloc T_FILE
    let im ← im.iappend rootino (dirent inum f.entryName) 16
    im.appendAll inum f.reads

/-- The root inode with its size rounded up. -/
def rounded (din : Dinode) : Dinode := { din with size := (din.size / BSIZE + 1) * BSIZE }

/-- The end of `main`: fix size of root inode dir, and write the free map. -/
def finish (im : Image) (rootino : Nat) : Except Abort Image := do
  let din ← im.rinode rootino
  let im ← im.winode rootino (rounded din)
  im.balloc im.freeblock

/-- `main` -/
def main (files : List HostFile) : Except Abort Image := do
  let (im, rootino) ← blank.ialloc T_DIR
  if rootino ≠ ROOTINO then .error .assert
  else
    let im ← im.iappend rootino (dirent rootino [46]) 16
    let im ← im.iappend rootino (dirent rootino [46, 46]) 16
    let im ← forEach (addFile rootino) files im
    finish im rootino

end Mkfs
end Xv6

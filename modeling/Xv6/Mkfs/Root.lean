import Xv6.Mkfs.Files

/-!
# Xv6.Mkfs.Root

The image that `main` writes.  Every file gets an inode and an entry of the root
directory.  At the end the size of the root directory is set to
`((off / BSIZE) + 1) * BSIZE`, which is one block too many when the entries fill
their last block: then there is no block for the last part of the directory.
-/

namespace Xv6

open Function List

open Lib Fs

namespace Mkfs

open Image Disk

/-- The entries of the root directory. -/
def listing (files : List HostFile) : List (Nat × List UInt8) :=
  (ROOTINO, [46]) :: (ROOTINO, [46, 46]) :: files.zipIdx.map fun f => (f.2 + 2, f.1.entryName)

/-- The bytes of entry `k` of a directory, zero behind the last entry. -/
def entryBytes (es : List (Nat × List UInt8)) (k : Nat) : Bytes :=
  match es[k]? with
  | some e => dirent e.1 e.2
  | none => fun _ => 0

@[simp] theorem length_listing (files : List HostFile) :
    (listing files).length = files.length + 2 := by
  simp [listing]

theorem listing_concat (files : List HostFile) (f : HostFile) :
    listing (files ++ [f]) = listing files ++ [(files.length + 2, f.entryName)] := by
  simp [listing, zipIdx_append]

/-! ## The root directory under construction -/

/-- The root directory has the entries `es`, and no blocks behind them. -/
structure Root (im : Image) (root : Dinode) (es : List (Nat × List UInt8)) : Prop where
  table : im.disk.table ROOTINO = some root
  type : root.type = T_DIR
  size : root.size = 16 * es.length
  bytes : ∀ k i, i < 16 → 16 * k + i < MAXFILE * BSIZE →
    im.disk.byteAt root (16 * k + i) = entryBytes es k i
  none : ∀ bn < MAXFILE, root.size ≤ bn * BSIZE → im.disk.ptr root (locOf bn) = 0

variable {im im' : Image} {root : Dinode} {es : List (Nat × List UInt8)}

theorem entryBytes_concat (es : List (Nat × List UInt8)) (e : Nat × List UInt8) (k : Nat) :
    entryBytes (es ++ [e]) k = if k = es.length then dirent e.1 e.2 else entryBytes es k := by
  unfold entryBytes
  by_cases hk : k = es.length
  · rw [if_pos hk, hk, getElem?_append_right le_rfl]
    simp
  rw [if_neg hk]
  by_cases hlt : k < es.length
  · rw [getElem?_append_left hlt]
  · rw [getElem?_eq_none (by simp; omega), getElem?_eq_none (by omega)]

theorem Root.append (hr : Root im root es) (h : Good im) {M : Nat} (hM : es.length + 1 ≤ M)
    (hmax : 16 * M ≤ (NDIRECT + NINDIRECT) * BSIZE) (e : Nat × List UInt8)
    (hroom : im.disk.lack im.disk.table ROOTINO (touched 0 (16 * M)) ≤ im.disk.free) :
    ∃ im' root', im.iappend ROOTINO (dirent e.1 e.2) 16 = .ok im' ∧
      Appends im ROOTINO root (dirent e.1 e.2) 16 im' root' ∧ Root im' root' (es ++ [e]) := by
  have hsize := hr.size
  have hsub : touched root.size 16 ⊆ touched 0 (16 * M) := touched_mono (by omega) (by omega)
  have hroom' : im.disk.lack im.disk.table ROOTINO (touched root.size 16) ≤ im.disk.free :=
    Nat.le_trans (Finset.card_le_card (Finset.filter_subset_filter _ hsub)) hroom
  obtain ⟨im', root', hok, ha⟩ := h.iappend hr.table (by rw [hr.type]; decide) (by omega) hroom'
    (dirent e.1 e.2)
  refine ⟨im', root', hok, ha, by rw [ha.table, update_self], ha.type.trans hr.type, ?_,
    fun k i hi hmax' => ?_, fun bn hbn hge => ?_⟩
  · rw [ha.size, hsize, length_append]
    simp only [length_singleton]
    omega
  · rw [entryBytes_concat]
    by_cases hk : k = es.length
    · rw [if_pos hk, hk, ← hsize, ha.inside i hi]
    · rw [if_neg hk, ha.outside _ hmax' (by omega), hr.bytes k i hi hmax']
  · rw [ha.size] at hge
    rw [ha.rest _ (locOf_data bn) fun i hlo hhi heq => ?_, hr.none bn hbn (by omega)]
    have hi : i < MAXFILE * BSIZE :=
      Nat.lt_of_lt_of_le (show i < 16 * M by omega) (Nat.le_trans hmax (by decide))
    have hdiv := locOf_injective hbn (div_lt_maxfile hi) heq
    simp only [BSIZE] at hge hdiv
    omega

/-- Work on other inodes leaves the root directory alone. -/
theorem Root.keep (hr : Root im root es) (htable : im'.disk.table ROOTINO = some root)
    (hbytes : ∀ i, im'.disk.byteAt root i = im.disk.byteAt root i)
    (hframe : ∀ x : Place, x.1 = ROOTINO →
      im'.disk.held im'.disk.table x = im.disk.held im.disk.table x) : Root im' root es where
  table := htable
  type := hr.type
  size := hr.size
  bytes k i hi hmax := by rw [hbytes, hr.bytes k i hi hmax]
  none bn hbn hge := by
    have hptr := hframe (ROOTINO, locOf bn) rfl
    rw [held_of_some htable, held_of_some hr.table] at hptr
    rw [hptr, hr.none bn hbn hge]

theorem Root.allocs (hr : Root im root es) {type : Int16} (ha : Allocs im type im')
    (hne : im.freeinode ≠ ROOTINO) : Root im' root es :=
  hr.keep (by rw [ha.table, update_of_ne hne.symm, hr.table])
    (ha.other ROOTINO root hr.table) fun x hx => ha.frame x (by rw [hx]; exact hne.symm)

theorem Root.appendsAll (hr : Root im root es) {m : Nat} {d d' : Dinode} {bytes : List UInt8}
    (ha : AppendsAll im m d bytes im' d') (hne : m ≠ ROOTINO) : Root im' root es :=
  hr.keep (by rw [ha.table, update_of_ne hne.symm, hr.table])
    (ha.other ROOTINO root hne.symm hr.table) fun x hx => ha.frame x (by rw [hx]; exact hne.symm)

theorem lack_congr {fs fs' : Disk} {I I' : Table} {ino : Nat}
    (h : ∀ x : Place, x.1 = ino → fs'.held I' x = fs.held I x) (S : Finset Loc) :
    fs'.lack I' ino S = fs.lack I ino S := by
  refine congrArg Finset.card (Finset.filter_congr fun l _ => ?_)
  rw [h (ino, l) rfl]

/-! ## The loop over the files -/

/-- The number of blocks of a file. -/
def HostFile.blocks (f : HostFile) : Nat := (touched 0 f.reads.flatten.length).card

/-- The files `done` are in the image, and there is room for the files `todo`, with
entries for `N` files. -/
structure Stage (N : Nat) (done todo : List HostFile) (im : Image) : Prop where
  good : Good im
  root : ∃ root, Root im root (listing done)
  freeinode : im.freeinode = done.length + 2
  room : im.disk.lack im.disk.table ROOTINO (touched 0 (16 * (N + 2))) +
    (todo.map HostFile.blocks).sum ≤ im.disk.free

theorem freeinode_appendAll {m : Nat} {pieces : List (List UInt8)}
    (h : im.appendAll m pieces = .ok im') : im'.freeinode = im.freeinode :=
  forEach_inv (fun im1 => im1.freeinode = im.freeinode)
    (fun _ _ _ _ ha hb => (freeinode_iappend hb).trans ha) h rfl

/-- **One more file.** -/
theorem Stage.addFile {N : Nat} {done todo : List HostFile} {f : HostFile}
    (h : Stage N done (f :: todo) im) (hN : done.length < N) (hinodes : N + 2 ≤ NINODES)
    (hname : 47 ∉ f.name) (hsize : f.reads.flatten.length ≤ (NDIRECT + NINDIRECT) * BSIZE) :
    ∃ im', addFile ROOTINO im f = .ok im' ∧ Stage N (done ++ [f]) todo im' := by
  obtain ⟨root, hroot⟩ := h.root
  have hroom := h.room
  rw [map_cons, sum_cons] at hroom
  have hinode := h.freeinode
  have hmax : 16 * (N + 2) ≤ (NDIRECT + NINDIRECT) * BSIZE := by
    simp only [NINODES, NDIRECT, NINDIRECT, BSIZE] at *
    omega
  have hne : im.freeinode ≠ ROOTINO := by
    simp only [ROOTINO]
    omega
  -- the inode
  obtain ⟨im1, hok1, ha1⟩ := h.good.ialloc (by omega) (show T_FILE ≠ 0 by decide)
  have hroot1 := hroot.allocs ha1 hne
  have hlack1 := lack_congr (fun x hx => ha1.frame x (by rw [hx]; exact hne.symm))
    (touched 0 (16 * (N + 2)))
  have hfree1 : im1.disk.free = im.disk.free := by
    rw [free_disk ha1.good.ready, free_disk h.good.ready, ha1.freeblock]
  -- its entry
  obtain ⟨im2, root2, hok2, ha2, hroot2⟩ := hroot1.append ha1.good (by rw [length_listing]; omega)
    hmax (im.freeinode, f.entryName) (by omega)
  have hsub : touched root.size 16 ⊆ touched 0 (16 * (N + 2)) := by
    have hrs := hroot.size
    rw [length_listing] at hrs
    exact touched_mono (by omega) (by omega)
  have hbalance2 := ha2.balance _ hsub
  -- its content
  have hd2 : im2.disk.table im.freeinode = some (newInode T_FILE) := by
    rw [ha2.table, update_of_ne hne, ha1.table, update_self]
  have hlack : im2.disk.lack im2.disk.table im.freeinode
      (touched 0 f.reads.flatten.length) ≤ f.blocks := lack_le _ _ _ _
  obtain ⟨im3, d3, hok3, ha3⟩ := ha2.good.appendAll hd2 (show T_FILE ≠ T_DEV by decide)
    (by rwa [show (newInode T_FILE).size = 0 from rfl, Nat.zero_add])
    (by rw [show (newInode T_FILE).size = 0 from rfl]; omega)
  have hlack3 := lack_congr (fun x hx => ha3.frame x (by rw [hx]; exact hne.symm))
    (touched 0 (16 * (N + 2)))
  have hbalance3 := ha3.balance _ (Finset.Subset.refl _)
  rw [show (newInode T_FILE).size = 0 from rfl] at hbalance3
  refine ⟨im3, ?_, ha3.good, ⟨root2, ?_⟩, ?_, ?_⟩
  · rw [Mkfs.addFile, if_neg hname, hok1, ok_bind]
    simp only
    rw [hok2, ok_bind, hok3]
  · have hkeep := hroot2.appendsAll ha3 hne
    rwa [hinode, ← listing_concat] at hkeep
  · rw [freeinode_appendAll hok3, freeinode_iappend hok2, ha1.freeinode, hinode,
      length_append]
    rfl
  · omega

theorem Stage.addFiles {N : Nat} {done todo : List HostFile} (h : Stage N done todo im)
    (hN : done.length + todo.length ≤ N) (hinodes : N + 2 ≤ NINODES)
    (hnames : ∀ f ∈ todo, 47 ∉ f.name)
    (hsizes : ∀ f ∈ todo, f.reads.flatten.length ≤ (NDIRECT + NINDIRECT) * BSIZE) :
    ∃ im', forEach (Mkfs.addFile ROOTINO) todo im = .ok im' ∧ Stage N (done ++ todo) [] im' := by
  induction todo generalizing im done with
  | nil => exact ⟨im, rfl, by rwa [append_nil]⟩
  | cons f todo ih =>
    rw [length_cons] at hN
    obtain ⟨im1, hok1, h1⟩ := h.addFile (by omega) hinodes (hnames f mem_cons_self)
      (hsizes f mem_cons_self)
    obtain ⟨im', hok', h'⟩ := ih h1 (by rw [length_append, length_singleton]; omega)
      (fun g hg => hnames g (mem_cons_of_mem f hg))
      fun g hg => hsizes g (mem_cons_of_mem f hg)
    rw [append_assoc, singleton_append] at h'
    exact ⟨im', bind_eq_ok.mpr ⟨im1, hok1, hok'⟩, h'⟩

variable {files : List HostFile}

/-- The image with an empty root directory, before the first file. -/
theorem stage_start {N : Nat} (hinodes : N + 2 ≤ NINODES)
    (hfits : nmeta + (touched 0 (16 * (N + 2))).card + (files.map HostFile.blocks).sum ≤ FSSIZE) :
    ∃ im1 im2 im3, blank.ialloc T_DIR = .ok (im1, ROOTINO) ∧
      im1.iappend ROOTINO (dirent ROOTINO [46]) 16 = .ok im2 ∧
      im2.iappend ROOTINO (dirent ROOTINO [46, 46]) 16 = .ok im3 ∧ Stage N [] files im3 := by
  have hmax : 16 * (N + 2) ≤ (NDIRECT + NINDIRECT) * BSIZE := by
    simp only [NINODES, NDIRECT, NINDIRECT, BSIZE] at *
    omega
  obtain ⟨im1, hok1, ha1⟩ := good_blank.ialloc (by decide) (show T_DIR ≠ 0 by decide)
  have hself : im1.disk.table ROOTINO = some (newInode T_DIR) := by
    rw [ha1.table]
    exact update_self ..
  have hempty : ∀ l, im1.disk.ptr (newInode T_DIR) l = 0 := ptr_of_empty fun _ => rfl
  have hroot1 : Root im1 (newInode T_DIR) [] :=
    ⟨hself, rfl, rfl, fun k i _ _ => by rw [byteAt, if_pos (hempty _)]; rfl,
      fun bn _ _ => hempty _⟩
  have hfree1 : im1.disk.free = FSSIZE - nmeta := by
    rw [free_disk ha1.good.ready, ha1.freeblock]
    rfl
  have hlack1 := lack_le im1.disk im1.disk.table ROOTINO (touched 0 (16 * (N + 2)))
  obtain ⟨im2, root2, hok2, ha2, hroot2⟩ := hroot1.append ha1.good (M := N + 2)
    (show 0 + 1 ≤ N + 2 by omega) hmax (ROOTINO, [46]) (by omega)
  have hbalance2 := ha2.balance (touched 0 (16 * (N + 2)))
    (touched_mono (Nat.zero_le _) (show 0 + 16 ≤ 0 + 16 * (N + 2) by omega))
  obtain ⟨im3, root3, hok3, ha3, hroot3⟩ := hroot2.append ha2.good (M := N + 2)
    (show 1 + 1 ≤ N + 2 by omega) hmax (ROOTINO, [46, 46]) (by omega)
  have hbalance3 := ha3.balance (touched 0 (16 * (N + 2)))
    (touched_mono (Nat.zero_le _) (by rw [hroot2.size, length_append]; simp; omega))
  refine ⟨im1, im2, im3, hok1, hok2, hok3, ha3.good, ⟨root3, hroot3⟩, ?_, by omega⟩
  rw [freeinode_iappend hok3, freeinode_iappend hok2, ha1.freeinode]
  rfl

/-! ## The finished image -/

/-- The disk of a finished image. -/
def Image.mount (im : Image) : Disk where
  block := im.sect
  sb := Mkfs.sb
  devsw _ := { read := none, write := none }
  logged := []

/-- What a file system should be: all blocks below the sizes are allocated, every
block number is that of a data block and stands in one place only, the free map
marks the blocks that are taken, and reading the root directory gives the
entries for the files, and nothing else. -/
structure Consistent (files : List HostFile) (im : Image) : Prop where
  dense : ∀ m < NINODES, (im.mount.dinode m).type ≠ 0 → Disk.Dense im.mount (im.mount.dinode m)
  owned : im.mount.Owned im.mount.table
  map : ∀ b < BPB, im.mount.marked b = true ↔ b < im.freeblock
  root : ∀ dst k, 16 * k < (im.mount.dinode ROOTINO).size →
    im.mount.readi (Inodes.copyOf ROOTINO (im.mount.dinode ROOTINO)) dst (16 * k) 16 =
      .ok (im.mount, Inodes.copyOf ROOTINO (im.mount.dinode ROOTINO), 16,
        copyTo dst 0 (entryBytes (listing files) k) 16)
  entries : 16 * (listing files).length ≤ (im.mount.dinode ROOTINO).size

/-- What the end of `main` leaves behind. -/
structure Finished (im : Image) (root : Dinode) (im' : Image) : Prop where
  works : Disk.Works ROOTINO im.disk im.disk.table im'.mount im'.mount.table
  table : im'.mount.table = update im.disk.table ROOTINO (some (rounded root))
  dinode : im'.mount.dinode ROOTINO = rounded root
  ptr : ∀ l, im'.mount.ptr (rounded root) l = im.disk.ptr root l
  bytes : ∀ i, im'.mount.byteAt (rounded root) i = im.disk.byteAt root i
  map : ∀ b < BPB, im'.mount.marked b = decide (b < im'.freeblock)

theorem SameBlocks.works {fs fs1 fs2 : Disk} {I I' : Table} {ino : Nat} (h : SameBlocks fs1 fs2)
    (hw : Disk.Works ino fs I fs1 I') : Disk.Works ino fs I fs2 I' where
  sb := h.sb.trans hw.sb
  dinode m hm hne := by rw [h.dinode, hw.dinode m hm hne]
  sound := h.sound hw.sound
  owned := h.owned hw.owned
  covered hc := h.covered (hw.covered hc)
  other := hw.other
  frame x hx := by rw [h.held, hw.frame x hx]
  block x hx hd hne := by rw [h.block, hw.block x hx hd hne]
  kept x hx := by rw [h.held, hw.kept x hx]
  gains := by
    rw [h.held, h.used]
    exact hw.gains

theorem fits_rounded (h : Good im) (hd : im.disk.table ROOTINO = some root) :
    (rounded root).Fits := by
  have hsize := (h.dense _ _ hd).size
  have hmax : MAXFILE * BSIZE + BSIZE < 2 ^ 32 := by decide
  have hround : (root.size / BSIZE + 1) * BSIZE ≤ root.size + BSIZE := by
    simp only [BSIZE]
    omega
  have hlt : root.size + BSIZE < 2 ^ 32 :=
    Nat.lt_of_le_of_lt (Nat.add_le_add_right hsize BSIZE) hmax
  have haddrs := Disk.Owned.fits h.sound h.owned hd (Nat.lt_of_le_of_lt (Nat.le_add_right ..) hlt)
  exact ⟨Nat.lt_of_le_of_lt hround hlt, haddrs.addrs⟩

theorem Image.Good.finish (h : Good im) (hd : im.disk.table ROOTINO = some root) :
    ∃ im', Mkfs.finish im ROOTINO = .ok im' ∧ Finished im root im' := by
  obtain ⟨hlt, hdisk, htype⟩ := table_some hd
  have hrinode : im.rinode ROOTINO = .ok root := by rw [(shows_disk im).rinode hlt, ← hdisk]
  obtain ⟨im1, hok1, hshows, hready, -⟩ :=
    (shows_disk im).winode h.ready hlt (rounded root)
  have hballoc : im1.balloc im1.freeblock =
      .ok (im1.wsect Mkfs.sb.bmapstart (bitmap im1.freeblock)) :=
    if_pos (Nat.lt_of_le_of_lt hready.le_size (by decide))
  refine ⟨im1.wsect Mkfs.sb.bmapstart (bitmap im1.freeblock), ?_, ?_⟩
  · rw [Mkfs.finish, hrinode, ok_bind, hok1, ok_bind, hballoc]
  · have hsame : SameBlocks (im.disk.setDinode ROOTINO (rounded root))
        (im1.wsect Mkfs.sb.bmapstart (bitmap im1.freeblock)).mount := ⟨hshows.block.symm, rfl⟩
    have hworks := works_setDinode h.sound hlt h.owned hd
      (show (rounded root).addrs = root.addrs from rfl)
    have hroot := dinode_setDinode_same im.disk ROOTINO (fits_rounded h hd)
    have htable : (im1.wsect Mkfs.sb.bmapstart (bitmap im1.freeblock)).mount.table =
        update im.disk.table ROOTINO (some (rounded root)) := by
      rw [hsame.table]
      exact table_of_dinode hworks.sb hworks.dinode hlt hroot htype
    have hptr : (im.disk.setDinode ROOTINO (rounded root)).ptr (rounded root) =
        im.disk.ptr root := by
      rw [← ptr_setDinode h.sound hlt h.owned hd (rounded root)]
      exact ptr_congr rfl fun _ _ _ _ _ => rfl
    refine ⟨?_, htable, ?_, fun l => ?_, fun i => ?_, fun b hb => ?_⟩
    · rw [htable]
      exact hsame.works hworks
    · rw [hsame.dinode, hroot]
    · rw [hsame.ptr, hptr]
    · rw [hsame.byteAt, byteAt_congr (show (rounded root).addrs = root.addrs from rfl),
        byteAt_setDinode h.sound hlt h.owned hd]
    · rw [hsame.marked, hshows.marked hready hb]
      rfl

/-- The rounded size leads to a block that is not there exactly when the entries fill
their last block. -/
theorem Finished.dense_iff (h : Finished im root im') (hr : Root im root es)
    (hdense : Disk.Dense im.disk root) (hfull : root.size < MAXFILE * BSIZE) :
    Disk.Dense im'.mount (rounded root) ↔ es.length % 32 ≠ 0 := by
  have hsize := hr.size
  constructor
  · intro hd hmod
    have hlt : root.size / BSIZE * BSIZE < (rounded root).size := by
      show _ < (root.size / BSIZE + 1) * BSIZE
      simp only [BSIZE]
      omega
    have hge : root.size ≤ root.size / BSIZE * BSIZE := by
      simp only [BSIZE]
      omega
    refine hd.ptr _ hlt ?_
    rw [h.ptr, hr.none _ (div_lt_maxfile hfull) hge]
  · intro hmod
    refine ⟨?_, fun bn hbn => ?_⟩
    · have hdiv : root.size / BSIZE + 1 ≤ MAXFILE := div_lt_maxfile hfull
      exact Nat.mul_le_mul_right BSIZE hdiv
    · rw [h.ptr]
      refine hdense.ptr bn ?_
      replace hbn : bn * BSIZE < (root.size / BSIZE + 1) * BSIZE := hbn
      simp only [BSIZE] at hbn ⊢
      omega

/-- Reading the root directory, when its blocks are there. -/
theorem Finished.readi (h : Finished im root im') (hr : Root im root es)
    (hd : Disk.Dense im'.mount (rounded root)) (dst : Bytes) {k : Nat}
    (hk : 16 * k < (rounded root).size) :
    im'.mount.readi (Inodes.copyOf ROOTINO (rounded root)) dst (16 * k) 16 =
      .ok (im'.mount, Inodes.copyOf ROOTINO (rounded root), 16,
        copyTo dst 0 (entryBytes es k) 16) := by
  have hmax : MAXFILE * BSIZE + 16 < 2 ^ 32 := by decide
  have hsize := hd.size
  have hend : 16 * k + 16 ≤ (rounded root).size := by
    have hsz : (rounded root).size = (root.size / BSIZE + 1) * BSIZE := rfl
    simp only [BSIZE] at hsz
    omega
  have htype : (Inodes.copyOf ROOTINO (rounded root)).type ≠ T_DEV := by
    show root.type ≠ T_DEV
    rw [hr.type]
    decide
  have hlt : 16 * k + 16 < 2 ^ 32 :=
    Nat.lt_of_le_of_lt (Nat.le_trans hend hsize) (Nat.lt_of_le_of_lt (Nat.le_add_right ..) hmax)
  rw [readi_eq htype hd dst (Nat.lt_of_le_of_lt (Nat.le_add_right ..) hlt) (by decide)]
  have hresult : readResult (im'.mount.content (rounded root)) dst (16 * k) 16 =
      (16, copyTo dst 0 (entryBytes es k) 16) := by
    have hbad : ¬((16 * k > (rounded root).size) ∨ uint (16 * k + 16) < 16 * k) := by
      rw [uint, Nat.mod_eq_of_lt hlt]
      omega
    rw [readResult, length_content, if_neg hbad,
      Nat.min_eq_left (show 16 ≤ (rounded root).size - 16 * k by omega)]
    refine congrArg (Prod.mk 16) (copyTo_congr fun i hi => ?_)
    rw [getD_content _ _ (by omega), h.bytes, hr.bytes k i hi]
    exact Nat.lt_of_lt_of_le (by omega) hsize
  exact congrArg (fun r => Except.ok (im'.mount, Inodes.copyOf ROOTINO (rounded root), r)) hresult

theorem Finished.consistent_iff (h : Finished im root im')
    (hg : Good im) (hr : Root im root (listing files)) (hfull : root.size < MAXFILE * BSIZE) :
    Consistent files im' ↔ (files.length + 2) % 32 ≠ 0 := by
  have hdense := hg.dense _ _ hr.table
  rw [← length_listing, ← h.dense_iff hr hdense hfull]
  constructor
  · intro hc
    have hroot := hc.dense ROOTINO (by decide)
    rw [h.dinode] at hroot
    exact hroot (table_some hr.table).2.2
  · intro hd
    refine ⟨fun m hm htype => ?_, h.works.owned, fun b hb => ?_, fun dst k hk => ?_, ?_⟩
    · by_cases hroot : m = ROOTINO
      · rwa [hroot, h.dinode]
      · rw [h.works.dinode m hm hroot] at htype ⊢
        have htable : im.disk.table m = some (im.disk.dinode m) := if_pos ⟨hm, htype⟩
        exact h.works.toSpares.dense hroot htable (hg.dense m _ htable)
    · rw [h.map b hb, decide_eq_true_iff]
    · rw [h.dinode] at hk ⊢
      exact h.readi hr hd dst hk
    · rw [h.dinode, ← hr.size]
      show root.size ≤ (root.size / BSIZE + 1) * BSIZE
      simp only [BSIZE]
      omega

/-- The files fit in the image. -/
structure Fit (files : List HostFile) : Prop where
  names : ∀ f ∈ files, 47 ∉ f.name
  sizes : ∀ f ∈ files, f.reads.flatten.length ≤ (NDIRECT + NINDIRECT) * BSIZE
  inodes : files.length + 2 ≤ NINODES
  blocks : nmeta + (touched 0 (16 * (files.length + 2))).card +
    (files.map HostFile.blocks).sum ≤ FSSIZE

theorem Fit.main (h : Fit files) :
    ∃ im root im', Good im ∧ Root im root (listing files) ∧ root.size < MAXFILE * BSIZE ∧
      Finished im root im' ∧ main files = .ok im' := by
  obtain ⟨im1, im2, im3, hok1, hok2, hok3, h3⟩ := stage_start h.inodes h.blocks
  obtain ⟨im4, hok4, h4⟩ := h3.addFiles (by simp) h.inodes h.names h.sizes
  obtain ⟨root, hroot⟩ := h4.root
  rw [nil_append] at hroot
  obtain ⟨im5, hok5, h5⟩ := h4.good.finish hroot.table
  refine ⟨im4, root, im5, h4.good, hroot, ?_, h5, ?_⟩
  · rw [hroot.size, length_listing]
    exact Nat.lt_of_le_of_lt (Nat.mul_le_mul_left 16 h.inodes) (by decide)
  · rw [Mkfs.main, hok1, ok_bind]
    simp only
    rw [if_neg (by simp), hok2, ok_bind, hok3, ok_bind, hok4, ok_bind]
    exact hok5

/-- **The image of `main` is consistent exactly when the entries of the root directory
do not fill their last block**, for all files that fit in the image. -/
theorem main_consistent_iff (files : List HostFile) (h : Fit files) :
    ∃ im, main files = .ok im ∧ (Consistent files im ↔ (files.length + 2) % 32 ≠ 0) := by
  obtain ⟨im, root, im', hg, hroot, hfull, hfinished, hok⟩ := h.main
  exact ⟨im', hok, hfinished.consistent_iff hg hroot hfull⟩

/-- Files without content, with names of one letter. -/
def letters (n : Nat) : List HostFile :=
  (range n).map fun i => { name := [97 + UInt8.ofNat i], reads := [] }

theorem fit_letters {n : Nat} (hn : n ≤ 30) : Fit (letters n) where
  names f hf := by
    obtain ⟨i, hi, rfl⟩ := mem_map.mp hf
    have hletter : ∀ i < 30, (47 : UInt8) ∉ [97 + UInt8.ofNat i] := by decide +kernel
    exact hletter i (Nat.lt_of_lt_of_le (mem_range.mp hi) hn)
  sizes f hf := by
    obtain ⟨i, -, rfl⟩ := mem_map.mp hf
    exact Nat.zero_le _
  inodes := by
    simp only [letters, length_map, length_range, NINODES]
    omega
  blocks := by
    have hcard : (touched 0 (16 * (n + 2))).card ≤ 1 := by
      refine (card_touched_le (k := 1) ?_).trans (by decide)
      simp only [BSIZE]
      omega
    have hempty : ((letters n).map HostFile.blocks).sum = 0 := by
      refine sum_eq_zero fun b hb => ?_
      simp only [letters, map_map, mem_map] at hb
      obtain ⟨i, -, rfl⟩ := hb
      rfl
    have hlen : (letters n).length = n := by simp [letters]
    have hmeta : nmeta + 1 ≤ FSSIZE := by decide
    rw [hempty, hlen]
    omega

theorem main_consistent_letter : ∃ im, main (letters 1) = .ok im ∧ Consistent (letters 1) im := by
  obtain ⟨im, hok, hiff⟩ := main_consistent_iff (letters 1) (fit_letters (by decide))
  exact ⟨im, hok, hiff.mpr (by decide)⟩

/-- The entries for 30 files fill the block of the root directory, and its size claims
a second block. -/
theorem main_letters_full : Fit (letters 30) ∧ ∃ im, main (letters 30) = .ok im ∧
    (im.mount.dinode ROOTINO).size = 2 * BSIZE ∧
    im.mount.ptr (im.mount.dinode ROOTINO) (locOf 1) = 0 ∧ ¬Consistent (letters 30) im := by
  have hfit : Fit (letters 30) := fit_letters le_rfl
  obtain ⟨im, root, im', hg, hroot, hfull, hfinished, hok⟩ := hfit.main
  have hsize : root.size = 512 := by
    rw [hroot.size]
    decide
  refine ⟨hfit, im', hok, ?_, ?_, ?_⟩
  · rw [hfinished.dinode]
    show (root.size / BSIZE + 1) * BSIZE = 2 * BSIZE
    simp only [hsize, BSIZE]
  · rw [hfinished.dinode, hfinished.ptr, hroot.none 1 (by decide) (by rw [hsize]; decide)]
  · rw [hfinished.consistent_iff hg hroot hfull]
    decide

end Mkfs
end Xv6

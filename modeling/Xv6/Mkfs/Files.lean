import Xv6.Mkfs.Agree
import Xv6.Fs.Inodes

/-!
# Xv6.Mkfs.Files

A file that `mkfs` appends to an image is the file that the kernel reads, as long
as it fits in the direct blocks and the indirect block.  A longer file, which the
assertion of `iappend` allows, makes it use an index outside the array `indirect`.
-/

namespace Xv6

open Function List

open Lib Fs Disk

namespace Mkfs

/-! ## Disks with the same blocks -/

section

variable {fs fs' : Disk}

/-- The two disks have the same blocks and the same superblock. -/
structure SameBlocks (fs fs' : Disk) : Prop where
  block : fs'.block = fs.block
  sb : fs'.sb = fs.sb

section

variable (h : SameBlocks fs fs')
include h

theorem SameBlocks.dinode : fs'.dinode = fs.dinode := by
  funext m
  rw [Disk.dinode, Disk.dinode, h.block, h.sb]

theorem SameBlocks.marked : fs'.marked = fs.marked := by
  funext b
  rw [Disk.marked, Disk.marked, h.block, h.sb]

theorem SameBlocks.ptr (d : Dinode) : fs'.ptr d = fs.ptr d :=
  ptr_congr rfl fun _ _ _ _ _ => by rw [h.block]

theorem SameBlocks.held (I : Table) : fs'.held I = fs.held I := by
  funext x
  simp only [Disk.held, h.ptr]

theorem SameBlocks.used : fs'.used = fs.used := by
  simp only [Disk.used, h.marked, h.sb]

theorem SameBlocks.table : fs'.table = fs.table := by
  funext m
  simp only [Disk.table, h.dinode, h.sb]

theorem SameBlocks.sound (hs : fs.Sound) : fs'.Sound where
  layout := h.sb ▸ hs.layout
  readsb := by
    have hread : fs'.readsb = fs.readsb := by rw [readsb, h.block, readsb]
    rw [hread, hs.readsb, h.sb]
  reserved := by
    rw [h.sb, h.marked]
    exact hs.reserved

theorem SameBlocks.owned {I : Table} (ho : fs.Owned I) : fs'.Owned I := by
  rw [Disk.Owned, h.held, h.used, h.sb]
  exact ho

theorem SameBlocks.covered {I : Table} (hc : fs.Covered I) : fs'.Covered I := by
  rw [Disk.Covered, h.held, h.used, h.sb]
  exact hc

theorem SameBlocks.dense {d : Dinode} (hd : Disk.Dense fs d) : Disk.Dense fs' d where
  size := hd.size
  ptr bn hbn := by
    rw [h.ptr]
    exact hd.ptr bn hbn

theorem SameBlocks.byteAt (d : Dinode) (i : Nat) : fs'.byteAt d i = fs.byteAt d i := by
  rw [Disk.byteAt, Disk.byteAt, h.ptr, h.block]

theorem SameBlocks.content (d : Dinode) : fs'.content d = fs.content d :=
  map_congr_left fun i _ => h.byteAt d i

theorem SameBlocks.free : fs'.free = fs.free := by
  simp only [Disk.free, h.marked, h.sb]

theorem SameBlocks.lack (I : Table) (ino : Nat) (S : Finset Loc) :
    fs'.lack I ino S = fs.lack I ino S := by
  simp only [Disk.lack, h.held]

end

end

namespace Image

/-! ## Images under construction -/

/-- The image as the kernel would see it if `mkfs` wrote the free map now. -/
def disk (im : Image) : Disk where
  block := im.final
  sb := Mkfs.sb
  devsw _ := { read := none, write := none }
  logged := []

theorem shows_disk (im : Image) : Shows im.disk im := ⟨rfl, rfl⟩

theorem Shows.same {fs : Disk} {im : Image} (h : Shows fs im) : SameBlocks fs im.disk :=
  ⟨h.block.symm, h.sb.symm⟩

/-- The image is that of a file system, without the inodes to come. -/
structure Good (im : Image) : Prop where
  ready : Ready im
  sound : im.disk.Sound
  owned : im.disk.Owned im.disk.table
  covered : im.disk.Covered im.disk.table
  dense : ∀ m d, im.disk.table m = some d → Disk.Dense im.disk d
  fresh : ∀ m, im.freeinode ≤ m → m < NINODES → (im.disk.dinode m).type = 0

variable {im im' : Image} {m n : Nat} {d : Dinode} {p : Bytes}

theorem table_some (h : im.disk.table m = some d) :
    m < NINODES ∧ d = im.disk.dinode m ∧ d.type ≠ 0 := by
  unfold table at h
  split at h
  · next hm =>
    cases h
    exact ⟨hm.1, rfl, hm.2⟩
  · contradiction

/-- The inodes on the disk after a change of one of them. -/
theorem table_of_dinode {fs fs' : Disk} (hsb : fs'.sb = fs.sb)
    (hother : ∀ k < fs.sb.ninodes, k ≠ m → fs'.dinode k = fs.dinode k) (hm : m < fs.sb.ninodes)
    (hd : fs'.dinode m = d) (htype : d.type ≠ 0) : fs'.table = update fs.table m (some d) := by
  funext k
  unfold table
  by_cases hk : k = m
  · subst hk
    rw [update_self, if_pos ⟨hsb ▸ hm, by rwa [hd]⟩, hd]
  rw [update_of_ne hk, hsb]
  by_cases hlt : k < fs.sb.ninodes
  · rw [hother k hlt hk]
  · rw [if_neg fun h => hlt h.1, if_neg fun h => hlt h.1]

/-- What `iappend` leaves behind. -/
structure Appends (im : Image) (m : Nat) (d : Dinode) (p : Bytes) (n : Nat) (im' : Image)
    (d' : Dinode) : Prop where
  good : Good im'
  table : im'.disk.table = update im.disk.table m (some d')
  type : d'.type = d.type
  size : d'.size = d.size + n
  content : im'.disk.content d' = im.disk.content d ++ (range n).map p
  inside : ∀ i < n, im'.disk.byteAt d' (d.size + i) = p i
  outside : ∀ i < MAXFILE * BSIZE, ¬(d.size ≤ i ∧ i < d.size + n) →
    im'.disk.byteAt d' i = im.disk.byteAt d i
  rest : ∀ l, l.Data → (∀ i, d.size ≤ i → i < d.size + n → l ≠ locOf (i / BSIZE)) →
    im'.disk.ptr d' l = im.disk.ptr d l
  dinode : ∀ k < NINODES, k ≠ m → im'.disk.dinode k = im.disk.dinode k
  other : ∀ k dk, k ≠ m → im.disk.table k = some dk →
    ∀ i, im'.disk.byteAt dk i = im.disk.byteAt dk i
  balance : ∀ S, touched d.size n ⊆ S → im'.disk.free + im.disk.lack im.disk.table m S =
    im.disk.free + im'.disk.lack im'.disk.table m S
  frame : ∀ x : Place, x.1 ≠ m → im'.disk.held im'.disk.table x = im.disk.held im.disk.table x
  sect : ∀ b, Foreign im.disk im.disk.table m b → b ≠ IBLOCK m Mkfs.sb → im'.sect b = im.sect b

theorem freeinode_addr (im : Image) (d : Dinode) (i : Fin (NDIRECT + 2)) :
    (im.addr d i).1.freeinode = im.freeinode := by
  unfold addr
  split <;> rfl

variable {d' : Dinode}

theorem freeinode_sector {x fbn : Nat} (h : im.sector d fbn = .ok (im', d', x)) :
    im'.freeinode = im.freeinode := by
  unfold sector at h
  split at h
  · cases h
    exact freeinode_addr ..
  obtain ⟨buf, -, h⟩ := bind_eq_ok.mp h
  split at h
  · contradiction
  split at h
  · cases h
    exact freeinode_addr ..
  · cases h
    exact freeinode_addr ..

theorem freeinode_appendLoop {off off' fuel : Nat}
    (h : im.appendLoop d p off n fuel = .ok (im', d', off')) : im'.freeinode = im.freeinode := by
  induction fuel generalizing im d p off n with
  | zero =>
    cases h
    rfl
  | succ fuel ih =>
    unfold appendLoop at h
    split at h
    · simp only at h
      split at h
      · obtain ⟨⟨im1, d1, x⟩, hsector, h⟩ := bind_eq_ok.mp h
        obtain ⟨buf, -, h⟩ := bind_eq_ok.mp h
        rw [ih h, ← freeinode_sector hsector]
        rfl
      · contradiction
    · cases h
      rfl

theorem freeinode_winode (h : im.winode m d = .ok im') : im'.freeinode = im.freeinode := by
  obtain ⟨buf, -, h⟩ := bind_eq_ok.mp h
  cases h
  rfl

theorem freeinode_iappend (h : im.iappend m p n = .ok im') : im'.freeinode = im.freeinode := by
  obtain ⟨din, -, h⟩ := bind_eq_ok.mp h
  obtain ⟨⟨im1, d1, off⟩, hloop, h⟩ := bind_eq_ok.mp h
  rw [freeinode_winode h, freeinode_appendLoop hloop]

theorem splice_length (c : List UInt8) (src : Bytes) (n : Nat) :
    splice c c.length src n = c ++ (range n).map src := by
  simp [splice]

/-- **Appending to a file of the image**, as long as the indirect block and the free
blocks are enough. -/
theorem Good.iappend (h : Good im) (hd : im.disk.table m = some d) (hdev : d.type ≠ T_DEV)
    (hmax : d.size + n ≤ (NDIRECT + NINDIRECT) * BSIZE)
    (hroom : im.disk.lack im.disk.table m (touched d.size n) ≤ im.disk.free) (p : Bytes) :
    ∃ im' d', im.iappend m p n = .ok im' ∧ Appends im m d p n im' d' := by
  obtain ⟨hlt, hdisk, htype⟩ := table_some hd
  have hdense := h.dense m d hd
  have hmaxfile : d.size + n ≤ MAXFILE * BSIZE := Nat.le_trans hmax (by decide)
  -- the kernel's copy of the inode
  let ip := Inodes.copyOf m d
  have hI : im.disk.table ip.inum = some ip.toDinode := hd
  obtain ⟨fs', ip', r, hok⟩ := writei_ok h.sound h.owned hI hdev le_rfl hmaxfile hroom p
  obtain ⟨hw, -⟩ := writei_wrote h.sound h.owned hI hlt hdev le_rfl hmaxfile hok
  obtain ⟨im', hok', hshows, hready, hsect⟩ := (shows_disk im).iappend h.ready h.sound h.owned hI
    hlt hdev hdisk.symm hmax hok
  have hsame := hshows.same
  have hd' : fs'.dinode m = ip'.toDinode := hw.disk hdense hdisk.symm
  have htype' : ip'.type = d.type := by rw [hw.inode]; rfl
  have htable : im'.disk.table = update im.disk.table m (some ip'.toDinode) := by
    rw [hsame.table]
    exact table_of_dinode hw.sb hw.dinode hlt hd' (by rwa [htype'])
  have hself : im'.disk.table m = some ip'.toDinode := by rw [htable, update_self]
  refine ⟨im', ip'.toDinode, hok', ?_, htable, htype', hw.size.trans ?_, ?_, ?_, ?_, ?_, ?_, ?_, ?_,
    ?_, hsect⟩
  · refine ⟨hready, hsame.sound hw.sound, ?_, ?_, fun k dk hk => ?_, fun k hge hk => ?_⟩
    · rw [htable]
      exact hsame.owned hw.owned
    · rw [htable]
      exact hsame.covered (hw.covered h.covered)
    · refine hsame.dense ?_
      rw [htable] at hk
      by_cases hkm : k = m
      · rw [hkm, update_self] at hk
        cases hk
        exact hw.dense hd hdense le_rfl hmaxfile
      · rw [update_of_ne hkm] at hk
        exact hw.toSpares.dense hkm hk (h.dense k dk hk)
    · rw [freeinode_iappend hok'] at hge
      have hfree := h.fresh k hge hk
      have hkm : k ≠ m := by
        rintro rfl
        exact htype (hdisk ▸ hfree)
      rw [hsame.dinode, hw.dinode k hk hkm]
      exact hfree
  · exact Nat.max_eq_right (Nat.le_add_right _ _)
  · rw [hsame.content, hw.content_splice le_rfl hdense.size]
    have hlen : (im.disk.content d).length = d.size := length_content ..
    show splice (im.disk.content d) d.size p n = _
    rw [← hlen, splice_length]
  · intro i hi
    rw [hsame.byteAt, hw.inside (d.size + i) (Nat.le_add_right _ _) (Nat.add_lt_add_left hi _)]
    show p (d.size + i - d.size) = p i
    rw [Nat.add_sub_cancel_left]
  · intro i hi hout
    rw [hsame.byteAt, hw.outside i hi hout]
    rfl
  · intro l hl hrest
    rw [hsame.ptr]
    exact hw.rest l hl hrest
  · intro k hk hkm
    rw [hsame.dinode]
    exact hw.dinode k hk hkm
  · intro k dk hk hdk i
    rw [hsame.byteAt]
    exact hw.toSpares.byteAt_eq hk hdk i
  · intro S hS
    rw [hsame.free, hsame.lack, htable]
    exact hw.balance S hS
  · intro x hx
    rw [htable, hsame.held]
    exact hw.frame x hx

/-! ## A file in pieces -/

theorem map_getD_range (buf : List UInt8) :
    (range buf.length).map (fun i => buf.getD i 0) = buf := by
  refine ext_getElem (by simp) fun i hi hi' => ?_
  simp [getElem?_eq_getElem hi']

theorem touched_mono {off n off' n' : Nat} (h : off' ≤ off) (h' : off + n ≤ off' + n') :
    touched off n ⊆ touched off' n' := by
  intro l hl
  obtain ⟨i, hi, hl⟩ := mem_touched.mp hl
  refine mem_touched.mpr ⟨off - off' + i, by omega, ?_⟩
  rwa [show off' + (off - off' + i) = off + i by omega]

/-- What appending the pieces of a file leaves behind. -/
structure AppendsAll (im : Image) (m : Nat) (d : Dinode) (bytes : List UInt8) (im' : Image)
    (d' : Dinode) : Prop where
  good : Good im'
  table : im'.disk.table = update im.disk.table m (some d')
  type : d'.type = d.type
  size : d'.size = d.size + bytes.length
  content : im'.disk.content d' = im.disk.content d ++ bytes
  dinode : ∀ k < NINODES, k ≠ m → im'.disk.dinode k = im.disk.dinode k
  other : ∀ k dk, k ≠ m → im.disk.table k = some dk →
    ∀ i, im'.disk.byteAt dk i = im.disk.byteAt dk i
  balance : ∀ S, touched d.size bytes.length ⊆ S →
    im'.disk.free + im.disk.lack im.disk.table m S =
      im.disk.free + im'.disk.lack im'.disk.table m S
  frame : ∀ x : Place, x.1 ≠ m → im'.disk.held im'.disk.table x = im.disk.held im.disk.table x
  sect : ∀ b, Foreign im.disk im.disk.table m b → b ≠ IBLOCK m Mkfs.sb → im'.sect b = im.sect b

theorem AppendsAll.nil (h : Good im) (hd : im.disk.table m = some d) :
    AppendsAll im m d [] im d where
  good := h
  table := by rw [← hd, update_eq_self]
  type := rfl
  size := rfl
  content := by simp
  dinode _ _ _ := rfl
  other _ _ _ _ _ := rfl
  balance _ _ := rfl
  frame _ _ := rfl
  sect _ _ _ := rfl

theorem AppendsAll.cons {im1 : Image} {d1 d2 : Dinode} {im2 : Image} {buf bytes : List UInt8}
    (h1 : Appends im m d (fun i => buf.getD i 0) buf.length im1 d1)
    (h2 : AppendsAll im1 m d1 bytes im2 d2) : AppendsAll im m d (buf ++ bytes) im2 d2 where
  good := h2.good
  table := by rw [h2.table, h1.table, update_idem]
  type := h2.type.trans h1.type
  size := by
    rw [h2.size, h1.size, length_append]
    omega
  content := by rw [h2.content, h1.content, map_getD_range, append_assoc]
  dinode k hk hkm := by rw [h2.dinode k hk hkm, h1.dinode k hk hkm]
  other k dk hk hdk i := by
    have hdk1 : im1.disk.table k = some dk := by rw [h1.table, update_of_ne hk, hdk]
    rw [h2.other k dk hk hdk1 i, h1.other k dk hk hdk i]
  balance S hS := by
    rw [length_append] at hS
    have hb1 := h1.balance S ((touched_mono le_rfl (by omega)).trans hS)
    have hb2 :=
      h2.balance S ((touched_mono (by rw [h1.size]; omega) (by rw [h1.size]; omega)).trans hS)
    omega
  frame x hx := by rw [h2.frame x hx, h1.frame x hx]
  sect b hb hne := by rw [h2.sect b (hb.keep h1.frame) hne, h1.sect b hb hne]

theorem Good.appendPiece (h : Good im) (hd : im.disk.table m = some d) (hdev : d.type ≠ T_DEV)
    {buf : List UInt8} {rest : Nat} (hmax : d.size + buf.length ≤ (NDIRECT + NINDIRECT) * BSIZE)
    (hroom : im.disk.lack im.disk.table m (touched d.size (buf.length + rest)) ≤ im.disk.free) :
    ∃ im1 d1, im.iappend m (fun i => buf.getD i 0) buf.length = .ok im1 ∧
      Appends im m d (fun i => buf.getD i 0) buf.length im1 d1 ∧
      im1.disk.table m = some d1 ∧
      im1.disk.lack im1.disk.table m (touched d1.size rest) ≤ im1.disk.free := by
  have hsub : touched d.size buf.length ⊆ touched d.size (buf.length + rest) :=
    touched_mono le_rfl (by omega)
  have hroom1 : im.disk.lack im.disk.table m (touched d.size buf.length) ≤ im.disk.free :=
    Nat.le_trans (Finset.card_le_card (Finset.filter_subset_filter _ hsub)) hroom
  obtain ⟨im1, d1, hok1, h1⟩ := h.iappend hd hdev hmax hroom1 fun i => buf.getD i 0
  have hrest : touched d1.size rest ⊆ touched d.size (buf.length + rest) :=
    touched_mono (by rw [h1.size]; omega) (by rw [h1.size]; omega)
  have hle : im1.disk.lack im1.disk.table m (touched d1.size rest) ≤
      im1.disk.lack im1.disk.table m (touched d.size (buf.length + rest)) :=
    Finset.card_le_card (Finset.filter_subset_filter _ hrest)
  have hbalance := h1.balance _ hsub
  exact ⟨im1, d1, hok1, h1, by rw [h1.table, update_self], by omega⟩

variable {pieces : List (List UInt8)}

/-- **A file in pieces**, as long as it fits. -/
theorem Good.appendAll (h : Good im) (hd : im.disk.table m = some d) (hdev : d.type ≠ T_DEV)
    (hmax : d.size + pieces.flatten.length ≤ (NDIRECT + NINDIRECT) * BSIZE)
    (hroom : im.disk.lack im.disk.table m (touched d.size pieces.flatten.length) ≤ im.disk.free) :
    ∃ im' d', im.appendAll m pieces = .ok im' ∧ AppendsAll im m d pieces.flatten im' d' := by
  induction pieces generalizing im d with
  | nil => exact ⟨im, d, rfl, .nil h hd⟩
  | cons buf pieces ih =>
    rw [flatten_cons, length_append] at hmax hroom
    obtain ⟨im1, d1, hok1, h1, hd1, hroom1⟩ := h.appendPiece hd hdev (by omega) hroom
    obtain ⟨im', d', hok', h'⟩ := ih h1.good hd1 (by rwa [h1.type]) (by rw [h1.size]; omega)
      hroom1
    exact ⟨im', d', bind_eq_ok.mpr ⟨im1, hok1, hok'⟩, .cons h1 h'⟩

/-! ## Longer files -/

/-- A block beyond the indirect block has no sector. -/
theorem sector_ok {fbn x : Nat} (h : im.sector d fbn = .ok (im', d', x)) :
    fbn < NDIRECT + NINDIRECT := by
  unfold sector at h
  split at h
  · omega
  obtain ⟨buf, -, h⟩ := bind_eq_ok.mp h
  split at h
  · contradiction
  · omega

theorem appendLoop_ok {off off' fuel : Nat} (hn : 0 < n) (hfuel : n ≤ fuel)
    (h : im.appendLoop d p off n fuel = .ok (im', d', off')) :
    off + n ≤ (NDIRECT + NINDIRECT) * BSIZE := by
  induction fuel generalizing im d p off n with
  | zero => omega
  | succ fuel ih =>
    unfold appendLoop at h
    rw [if_pos hn] at h
    simp only at h
    split at h
    · obtain ⟨⟨im1, d1, x⟩, hsector, h⟩ := bind_eq_ok.mp h
      obtain ⟨buf, -, h⟩ := bind_eq_ok.mp h
      have hfbn := sector_ok hsector
      have hend : (off / BSIZE + 1) * BSIZE ≤ (NDIRECT + NINDIRECT) * BSIZE :=
        Nat.mul_le_mul_right _ hfbn
      have hlt : off < (off / BSIZE + 1) * BSIZE := by
        simp only [BSIZE]
        omega
      generalize hn1 : min n ((off / BSIZE + 1) * BSIZE - off) = n1 at h
      by_cases hrest : 0 < n - n1
      · have hle := ih hrest (by omega) h
        omega
      · omega
    · contradiction

theorem iappend_ok (hd : im.disk.table m = some d) (h : im.iappend m p n = .ok im') (hn : 0 < n) :
    d.size + n ≤ (NDIRECT + NINDIRECT) * BSIZE := by
  obtain ⟨hlt, hdisk, -⟩ := table_some hd
  rw [iappend, (shows_disk im).rinode hlt, ok_bind, ← hdisk] at h
  obtain ⟨⟨im1, d1, off⟩, hloop, -⟩ := bind_eq_ok.mp h
  exact appendLoop_ok hn le_rfl hloop

/-- If all the pieces could be appended, they fit. -/
theorem Good.appendAll_ok (h : Good im) (hd : im.disk.table m = some d) (hdev : d.type ≠ T_DEV)
    (hsize : d.size ≤ (NDIRECT + NINDIRECT) * BSIZE)
    (hroom : im.disk.lack im.disk.table m (touched d.size pieces.flatten.length) ≤ im.disk.free)
    (hok : im.appendAll m pieces = .ok im') :
    d.size + pieces.flatten.length ≤ (NDIRECT + NINDIRECT) * BSIZE := by
  induction pieces generalizing im d with
  | nil => simpa using hsize
  | cons buf pieces ih =>
    obtain ⟨im1, hok1, hok⟩ := bind_eq_ok.mp hok
    rw [flatten_cons, length_append] at hroom ⊢
    have hbuf : d.size + buf.length ≤ (NDIRECT + NINDIRECT) * BSIZE := by
      by_cases hpos : 0 < buf.length
      · exact iappend_ok hd hok1 hpos
      · omega
    obtain ⟨im2, d2, hok2, h2, hd2, hroom2⟩ := h.appendPiece hd hdev hbuf hroom
    simp only [hok2] at hok1
    cases hok1
    have hrest := ih h2.good hd2 (by rwa [h2.type]) (by rwa [h2.size]) hroom2 hok
    rw [h2.size] at hrest
    omega

/-! ## New inodes -/

theorem marked_disk (h : Ready im) {b : Nat} (hb : b < FSSIZE) :
    im.disk.marked b = decide (b < im.freeblock) :=
  (shows_disk im).marked h (Nat.lt_of_lt_of_le hb (by decide))

theorem free_disk (h : Ready im) : im.disk.free = FSSIZE - im.freeblock := by
  have hfilter : (Finset.range im.disk.sb.size).filter (fun b => im.disk.marked b = false) =
      Finset.Ico im.freeblock FSSIZE := by
    ext b
    simp only [Finset.mem_filter, Finset.mem_range, Finset.mem_Ico]
    constructor
    · rintro ⟨hlt, hmarked⟩
      rw [marked_disk h hlt, decide_eq_false_iff_not] at hmarked
      exact ⟨by omega, hlt⟩
    · rintro ⟨hge, hlt⟩
      refine ⟨hlt, ?_⟩
      rw [marked_disk h hlt, decide_eq_false_iff_not]
      omega
  rw [free, hfilter, Nat.card_Ico]

theorem dataStart_sb : dataStart Mkfs.sb = nmeta := by decide

theorem layout_sb : Layout Mkfs.sb where
  size := by decide
  inodes := by decide
  map := by decide
  inodeBlocks i hi := by
    simp only [IBLOCK, Mkfs.sb, NINODES, IPB, BSIZE, ninodeblocks] at *
    omega
  mapBlocks b hb := by
    rw [bblock_eq (Nat.lt_trans hb (by decide)), dataStart_sb]
    decide

theorem Ready.sound (h : Ready im) (hread : im.disk.readsb = Mkfs.sb) : im.disk.Sound where
  layout := layout_sb
  readsb := hread
  reserved b hb hlt := by
    have hmeta : b < nmeta := Nat.lt_of_lt_of_eq hb dataStart_sb
    have hle := h.nmeta_le
    rw [marked_disk h hlt, decide_eq_true_iff]
    omega

theorem dinode_blank (m : Nat) (hm : m < NINODES) : (blank.disk.dinode m).type = 0 := by
  have hone : IBLOCK m Mkfs.sb ≠ 1 := (layout_sb.iblock_ne_one m).symm
  have hzero : blank.disk.block (IBLOCK m Mkfs.sb) = fun _ => 0 := by
    show blank.final (IBLOCK m Mkfs.sb) = _
    rw [final_of_ne blank (iblock_lt hm).2]
    simp only [blank, if_neg hone]
  have hsb : blank.disk.sb = Mkfs.sb := rfl
  rw [dinode, hsb, hzero]
  rfl

theorem good_blank : Good blank := by
  have hready : Ready blank := by
    refine ⟨le_rfl, by decide, fun b hb => if_neg ?_⟩
    rintro rfl
    exact absurd hb (by decide)
  have hnone : ∀ m, blank.disk.table m = none := fun m => by
    rw [table, if_neg]
    rintro ⟨hm, htype⟩
    exact htype (dinode_blank m hm)
  have hheld : ∀ x, blank.disk.held blank.disk.table x = 0 := fun x => held_of_none (hnone x.1) _
  refine ⟨hready, hready.sound (by decide +kernel), ⟨fun x hx => absurd (hheld x) hx,
    fun x hx => absurd (hheld x) hx, fun x _ hx _ => absurd (hheld x) hx⟩, fun b hb hused => ?_,
    fun m d hd => ?_, fun m _ hm => dinode_blank m hm⟩
  · have hmarked := hused.2
    rw [marked_disk hready hb.2, decide_eq_true_iff] at hmarked
    exact absurd hb.1 (Nat.not_le.mpr hmarked)
  · rw [hnone] at hd
    contradiction

/-- A new inode. -/
def newInode (type : Int16) : Dinode where
  type := type
  major := 0
  minor := 0
  nlink := 1
  size := 0
  addrs := fun _ => 0

/-- What `ialloc` leaves behind. -/
structure Allocs (im : Image) (type : Int16) (im' : Image) : Prop where
  good : Good im'
  table : im'.disk.table = update im.disk.table im.freeinode (some (newInode type))
  freeinode : im'.freeinode = im.freeinode + 1
  freeblock : im'.freeblock = im.freeblock
  frame : ∀ x : Place, x.1 ≠ im.freeinode →
    im'.disk.held im'.disk.table x = im.disk.held im.disk.table x
  other : ∀ k dk, im.disk.table k = some dk → ∀ i, im'.disk.byteAt dk i = im.disk.byteAt dk i

theorem Good.ialloc (h : Good im) (hlt : im.freeinode < NINODES) {type : Int16} (htype : type ≠ 0) :
    ∃ im', im.ialloc type = .ok (im', im.freeinode) ∧ Allocs im type im' := by
  have hready : Ready { im with freeinode := im.freeinode + 1 } :=
    ⟨h.ready.nmeta_le, h.ready.le_size, h.ready.zero⟩
  have hshows : Shows im.disk { im with freeinode := im.freeinode + 1 } := ⟨rfl, rfl⟩
  obtain ⟨im', hok, hshows', hready', hblock, hinode, -⟩ :=
    hshows.winode hready hlt (newInode type)
  have hsame := hshows'.same
  have hfree := h.fresh im.freeinode le_rfl hlt
  have hnone : im.disk.table im.freeinode = none := by
    rw [table, if_neg]
    exact fun hm => hm.2 hfree
  have hfits : (newInode type).Fits :=
    ⟨show 0 < 2 ^ 32 by decide, fun _ => show 0 < 2 ^ 32 by decide⟩
  have hlt' : im.freeinode < im.disk.sb.ninodes := hlt
  have hworks := works_setDinode_empty h.sound h.owned hlt' (newInode type)
    (o := some (newInode type)) (by simp [hnone]) fun d hd i => by
      cases hd
      rfl
  have hdinode := dinode_setDinode_same im.disk im.freeinode hfits
  have htable : im'.disk.table = update im.disk.table im.freeinode (some (newInode type)) := by
    rw [hsame.table]
    exact table_of_dinode hworks.sb hworks.dinode hlt' hdinode htype
  refine ⟨im', by rw [Image.ialloc]; exact bind_eq_ok.mpr ⟨im', hok, rfl⟩, ?_, htable, hinode, hblock,
    ?_, ?_⟩
  · refine ⟨hready', hsame.sound hworks.sound, ?_, ?_, fun k dk hk => ?_, fun k hge hk => ?_⟩
    · rw [htable]
      exact hsame.owned hworks.owned
    · rw [htable]
      exact hsame.covered (hworks.covered h.covered)
    · refine hsame.dense ?_
      rw [htable] at hk
      by_cases hkm : k = im.freeinode
      · rw [hkm, update_self] at hk
        cases hk
        exact ⟨Nat.zero_le _, fun bn hbn => absurd hbn (Nat.not_lt_zero _)⟩
      · rw [update_of_ne hkm] at hk
        exact hworks.toSpares.dense hkm hk (h.dense k dk hk)
    · rw [hinode] at hge
      have hge' : im.freeinode + 1 ≤ k := hge
      rw [hsame.dinode, hworks.dinode k hk (by omega)]
      exact h.fresh k (by omega) hk
  · intro x hx
    rw [htable, hsame.held]
    exact hworks.frame x hx
  · intro k dk hdk i
    have hk : k ≠ im.freeinode := by
      rintro rfl
      rw [hnone] at hdk
      contradiction
    rw [hsame.byteAt]
    exact hworks.toSpares.byteAt_eq hk hdk i

/-! ## Reading back -/

/-- The number of blocks on the way to the bytes of a file. -/
theorem lack_le (fs : Disk) (I : Table) (ino : Nat) (S : Finset Loc) : fs.lack I ino S ≤ S.card :=
  Finset.card_le_card (Finset.filter_subset _ _)

theorem Good.room (h : Good im) {S : Finset Loc} (hfits : im.freeblock + S.card ≤ FSSIZE) :
    im.disk.lack im.disk.table m S ≤ im.disk.free := by
  have hle := lack_le im.disk im.disk.table m S
  rw [free_disk h.ready]
  omega

/-- The blocks before the next free one, other than those of an inode without blocks. -/
theorem Good.foreign (h : Good im) (hd : im.disk.table m = some d) (hnew : ∀ i, d.addrs i = 0)
    {b : Nat} (hb : b < im.freeblock) : Foreign im.disk im.disk.table m b := by
  by_cases hmeta : b < nmeta
  · exact .inl hmeta
  have hlt : b < FSSIZE := Nat.lt_of_lt_of_le hb h.ready.le_size
  have hpos : 0 < nmeta := by decide
  have hdata : InData im.disk.sb b := by
    refine ⟨?_, hlt⟩
    show dataStart Mkfs.sb ≤ b
    rw [dataStart_sb]
    omega
  obtain ⟨x, hx⟩ := h.covered b hdata ⟨hlt, by rw [marked_disk h.ready hlt]; simpa using hb⟩
  refine .inr ⟨x, ?_, ?_, hx⟩
  · rintro rfl
    have hzero : im.disk.held im.disk.table x = 0 := by
      rw [show x = (x.1, x.2) from rfl, held_of_some hd, ptr_of_empty hnew]
    omega
  · omega

/-- A block that was free is as it was, or is one of the blocks of the inode. -/
theorem AppendsAll.sect_free {bytes : List UInt8} {d' : Dinode} {b : Nat}
    (ha : AppendsAll im m d bytes im' d') (h : Good im) (hb : im.freeblock ≤ b)
    (hblock : ∀ l, im'.disk.ptr d' l ≠ b) : im'.sect b = im.sect b := by
  by_cases hlt : im'.freeblock ≤ b
  · rw [ha.good.ready.zero b hlt, h.ready.zero b hb]
  have hsize : b < FSSIZE := Nat.lt_of_lt_of_le (not_le.mp hlt) ha.good.ready.le_size
  have hdata : InData im'.disk.sb b := by
    refine ⟨?_, hsize⟩
    show dataStart Mkfs.sb ≤ b
    rw [dataStart_sb]
    exact h.ready.nmeta_le.trans hb
  obtain ⟨⟨k, l⟩, hx⟩ := ha.good.covered b hdata
    ⟨hsize, by rw [marked_disk ha.good.ready hsize]; simpa using hlt⟩
  by_cases hk : k = m
  · subst hk
    rw [held_of_some (by rw [ha.table, update_self])] at hx
    exact absurd hx (hblock l)
  · -- then another inode had the block
    rw [ha.frame _ hk] at hx
    have hmeta := h.ready.nmeta_le
    have hne : b ≠ 0 := by
      simp only [nmeta] at hmeta
      omega
    have hused := h.owned.mem_used (k, l) (hx ▸ hne)
    rw [hx] at hused
    have hmarked := hused.2
    rw [marked_disk h.ready hsize, decide_eq_true_eq] at hmarked
    omega

/-- **`mkfs` and the kernel agree on a file exactly when it fits in the direct
blocks and the indirect block.**  The pieces of a file are appended to a new
inode; `im'.disk` is the image with its free map, as the kernel sees it. -/
theorem appendAll_reads (h : Good im) (hd : im.disk.table m = some d) (hdev : d.type ≠ T_DEV)
    (hsize : d.size = 0) (hnew : ∀ i, d.addrs i = 0) {pieces : List (List UInt8)}
    (hfits : im.freeblock + (touched 0 pieces.flatten.length).card ≤ FSSIZE) :
    (∃ im', im.appendAll m pieces = .ok im' ∧
      (∀ dst off n, off < 2 ^ 32 → n < 2 ^ 32 →
        im'.disk.readi (Inodes.copyOf m (im'.disk.dinode m)) dst off n =
          .ok (im'.disk, Inodes.copyOf m (im'.disk.dinode m),
            readResult pieces.flatten dst off n)) ∧
      (∀ b, b ≠ IBLOCK m Mkfs.sb →
        (b < im.freeblock ∨ ∀ l, im'.disk.ptr (im'.disk.dinode m) l ≠ b) → im'.sect b = im.sect b) ∧
      ∀ k < NINODES, k ≠ m → im'.disk.dinode k = im.disk.dinode k) ↔
    pieces.flatten.length ≤ (NDIRECT + NINDIRECT) * BSIZE := by
  have hroom := h.room (m := m) hfits
  rw [← hsize] at hroom
  constructor
  · rintro ⟨im', hok, -⟩
    have hle := h.appendAll_ok hd hdev (by rw [hsize]; exact Nat.zero_le _) hroom hok
    rwa [hsize, Nat.zero_add] at hle
  · intro hle
    obtain ⟨im', d', hok, ha⟩ := h.appendAll hd hdev (by rwa [hsize, Nat.zero_add]) hroom
    have hd' : im'.disk.table m = some d' := by rw [ha.table, update_self]
    have hdinode := (table_some hd').2.1
    have hcontent : im'.disk.content d' = pieces.flatten := by
      have hempty : im.disk.content d = [] := by simp [content, hsize]
      rw [ha.content, hempty, nil_append]
    refine ⟨im', hok, fun dst off n hoff hn => ?_, fun b hne hb => ?_, ha.dinode⟩
    · rw [← hdinode, readi_eq (show d'.type ≠ T_DEV by rwa [ha.type]) (ha.good.dense m d' hd') dst
        hoff hn]
      show _ = Except.ok (im'.disk, _, readResult pieces.flatten dst off n)
      rw [← hcontent]
      rfl
    · rw [← hdinode] at hb
      by_cases hlt : b < im.freeblock
      · exact ha.sect b (h.foreign hd hnew hlt) hne
      · exact ha.sect_free h (not_lt.mp hlt) (hb.resolve_left hlt)

theorem ialloc_blank : ∃ im, blank.ialloc T_FILE = .ok (im, 1) ∧ Good im ∧
    im.disk.table 1 = some (newInode T_FILE) ∧ im.freeblock = nmeta := by
  obtain ⟨im, hok, ha⟩ := good_blank.ialloc (by decide) (show T_FILE ≠ 0 by decide)
  refine ⟨im, hok, ha.good, ?_, ha.freeblock⟩
  rw [ha.table]
  exact update_self ..

/-- Three bytes in two pieces. -/
theorem appendAll_reads_blank : ∃ im im', blank.ialloc T_FILE = .ok (im, 1) ∧
    im.appendAll 1 [[104, 105], [33]] = .ok im' := by
  obtain ⟨im, hok, hgood, htable, hfree⟩ := ialloc_blank
  let pieces : List (List UInt8) := [[104, 105], [33]]
  have hfits : im.freeblock + (touched 0 pieces.flatten.length).card ≤ FSSIZE := by
    have hcard : (touched 0 pieces.flatten.length).card ≤ 1 :=
      (card_touched_le (k := 1) (by decide)).trans (by decide)
    have hmeta : nmeta + 1 ≤ FSSIZE := by decide
    omega
  obtain ⟨im', hok', -⟩ := (appendAll_reads hgood htable (show T_FILE ≠ T_DEV by decide) rfl
    (fun _ => rfl) hfits).mpr (by decide)
  exact ⟨im, im', hok, hok'⟩

/-- The next block of a file that fills the indirect block. -/
theorem iappend_full (h : Good im) (hd : im.disk.table m = some d)
    (hsize : d.size = (NDIRECT + NINDIRECT) * BSIZE) (hn : 0 < n) :
    im.iappend m p n = .error .indirect := by
  obtain ⟨hlt, hdisk, -⟩ := table_some hd
  have hfbn : d.size / BSIZE = NDIRECT + NINDIRECT := by
    rw [hsize, Nat.mul_div_cancel _ (by decide)]
  -- the last block is there, so the indirect block is
  have hlast : im.disk.ptr d (locOf (NDIRECT + NINDIRECT - 1)) ≠ 0 :=
    (h.dense m d hd).ptr _ (by rw [hsize]; decide)
  have hind : d.addrs ⟨NDIRECT, indirect_lt⟩ ≠ 0 :=
    ptr_up_ne_zero (p := Loc.indirect) (j := ⟨NINDIRECT - 1, by decide⟩) rfl hlast
  have harea := (shows_disk im).owned h.ready h.owned (x := (m, Loc.indirect))
    (by rw [held_of_some hd]; exact hind)
  rw [held_of_some hd] at harea
  have hsect : im.rsect (d.addrs ⟨NDIRECT, indirect_lt⟩) = .ok (im.sect (d.addrs ⟨NDIRECT, indirect_lt⟩)) :=
    rsect_of_lt (Nat.lt_of_lt_of_le harea.2.1 h.ready.le_size)
  have hsector : im.sector d (NDIRECT + NINDIRECT) = .error .indirect := by
    rw [sector, dif_neg (by decide), addr, if_neg hind]
    simp only
    rw [hsect, ok_bind, if_pos (by decide)]
  obtain ⟨k, rfl⟩ : ∃ k, n = k + 1 := ⟨n - 1, by omega⟩
  have hloop : im.appendLoop d p d.size (k + 1) (k + 1) = .error .indirect := by
    rw [appendLoop, if_pos hn]
    simp only [hfbn]
    rw [if_pos (by decide), hsector]
    rfl
  rw [iappend, (shows_disk im).rinode hlt, ok_bind, ← hdisk, hloop]
  rfl

/-- A file with one byte too many for the indirect block. -/
theorem appendAll_indirect : ∃ im, blank.ialloc T_FILE = .ok (im, 1) ∧
    71168 + 1 ≤ MAXFILE * BSIZE ∧ im.freeblock + (touched 0 (71168 + 1)).card ≤ FSSIZE ∧
    im.appendAll 1 [replicate 71168 0, [0]] = .error .indirect := by
  obtain ⟨im, hok, hgood, htable, hfree⟩ := ialloc_blank
  have hfits : im.freeblock + (touched 0 (71168 + 1)).card ≤ FSSIZE := by
    have hcard : (touched 0 (71168 + 1)).card ≤ 420 :=
      (card_touched_le (k := 140) (by decide)).trans (by decide +kernel)
    have hmeta : nmeta + 420 ≤ FSSIZE := by decide
    omega
  refine ⟨im, hok, by decide, hfits, ?_⟩
  have hroom := hgood.room (m := 1) hfits
  have hlen : (replicate 71168 (0 : UInt8)).length = 71168 := length_replicate
  obtain ⟨im1, d1, hok1, h1, hd1, -⟩ := @Good.appendPiece im 1 (newInode T_FILE) hgood htable
    (show T_FILE ≠ T_DEV by decide) (replicate 71168 0) 1 (by rw [hlen]; decide)
    (by rw [hlen]; exact hroom)
  have hsize : d1.size = (NDIRECT + NINDIRECT) * BSIZE := by
    rw [h1.size, hlen]
    rfl
  have hfull :=
    iappend_full (p := fun i => [(0 : UInt8)].getD i 0) h1.good hd1 hsize (n := 1) (by decide)
  rw [appendAll, forEach_cons, hok1, ok_bind, forEach_cons]
  show (im1.iappend 1 (fun i => [(0 : UInt8)].getD i 0) 1 >>= _) = _
  rw [hfull]
  rfl

end Image
end Mkfs
end Xv6

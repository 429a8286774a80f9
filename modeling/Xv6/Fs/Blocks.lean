import Xv6.Fs
import Xv6.Lib.Owner

/-!
# Xv6.Fs.Blocks

The parts of the disk and what a write to one of them leaves alone: the
superblock, the inodes, the free map and the data area.  The allocator takes a
block of the data area that was free, and gives back one that was not.
-/

namespace Xv6

open Lib Function Finset

namespace Fs

variable {d : Dinode} {fs' : Disk} {b c i k off : Nat}

/-! ## Bits -/

namespace Disk

theorem mask_toNat (bi : Nat) : (mask bi).toNat = 2 ^ (bi % 8) := by
  have h : bi % 8 < 8 := Nat.mod_lt _ (by decide)
  unfold mask
  generalize bi % 8 = i at h
  interval_cases i <;> rfl

theorem and_mask_ne_zero (x : UInt8) (bi : Nat) :
    (x &&& mask bi != 0) = x.toNat.testBit (bi % 8) := by
  have h : (x &&& mask bi).toNat = (x.toNat.testBit (bi % 8)).toNat * 2 ^ (bi % 8) := by
    rw [UInt8.toNat_and, mask_toNat, Nat.and_two_pow]
  cases hb : x.toNat.testBit (bi % 8) with
  | false =>
    rw [hb] at h
    have hzero : x &&& mask bi = 0 := UInt8.toNat_inj.mp (by simpa using h)
    simp [hzero]
  | true =>
    rw [hb] at h
    have hpos : 0 < 2 ^ (bi % 8) := by positivity
    have hne : x &&& mask bi ≠ 0 := fun hzero => by
      rw [hzero] at h
      simp only [UInt8.toNat_ofNat, Bool.toNat_true, one_mul] at h
      omega
    simp [hne]

theorem testBit_or_mask (x : UInt8) (bi k : Nat) :
    (x ||| mask bi).toNat.testBit k = (x.toNat.testBit k || decide (bi % 8 = k)) := by
  rw [UInt8.toNat_or, mask_toNat, Nat.testBit_or, Nat.testBit_two_pow]

theorem testBit_and_not_mask (x : UInt8) (bi : Nat) (hk : k < 8) :
    (x &&& ~~~mask bi).toNat.testBit k = (x.toNat.testBit k && !decide (bi % 8 = k)) := by
  have hnot : (~~~mask bi).toNat = 2 ^ 8 - 1 - 2 ^ (bi % 8) := by
    rw [UInt8.toNat_not, mask_toNat]
    rfl
  have hlt : 2 ^ (bi % 8) < 2 ^ 8 := Nat.pow_lt_pow_right (by decide) (Nat.mod_lt _ (by decide))
  rw [UInt8.toNat_and, Nat.testBit_and, hnot, Nat.sub_sub, Nat.add_comm 1,
    Nat.testBit_two_pow_sub_succ hlt, Nat.testBit_two_pow]
  simp [hk]

end Disk

/-! ## Inodes in a block -/

/-- The numbers of an inode fit into its fields. -/
structure Dinode.Fits (d : Dinode) : Prop where
  size : d.size < 2 ^ 32
  addrs : ∀ i, d.addrs i < 2 ^ 32

theorem getDinode_fits (b : Bytes) (off : Nat) : (getDinode b off).Fits where
  size := getLE_lt b (off + 8) 4
  addrs i := getLE_lt b (off + 12 + 4 * i) 4

theorem ofNat_toUInt16 (v : Int16) : Int16.ofNat v.toUInt16.toNat = v := by
  obtain ⟨u⟩ := v
  exact congrArg Int16.ofUInt16 UInt16.ofNat_toNat

theorem getShort_putShort (b : Bytes) (off : Nat) (v : Int16) :
    getShort (putShort b off v) off = v := by
  have hlt : v.toUInt16.toNat < 256 ^ 2 := v.toUInt16.toNat_lt
  rw [getShort, putShort, getLE_putLE_of_lt b off hlt, ofNat_toUInt16]

theorem getShort_putShort_of_disjoint (b : Bytes) {off' : Nat} (v : Int16)
    (h : off' + 2 ≤ off ∨ off + 2 ≤ off') : getShort (putShort b off v) off' = getShort b off' :=
  congrArg Int16.ofNat (getLE_putLE_of_disjoint b _ h)

theorem getShort_putLE_of_disjoint (b : Bytes) {width off' : Nat} (v : Nat)
    (h : off' + 2 ≤ off ∨ off + width ≤ off') :
    getShort (putLE b off width v) off' = getShort b off' :=
  congrArg Int16.ofNat (getLE_putLE_of_disjoint b _ h)

theorem getWord_putWord (b : Bytes) (j : Nat) {v : Nat} (h : v < 2 ^ 32) :
    getWord (putWord b j v) j = v :=
  getLE_putLE_of_lt b (4 * j) h

theorem getWord_putWord_of_ne (b : Bytes) {j : Nat} (v : Nat) (h : k ≠ j) :
    getWord (putWord b j v) k = getWord b k :=
  getLE_putLE_of_disjoint b v (by omega)

/-- The block numbers of an inode stand behind its other fields. -/
theorem getLE_putAddrs (b : Bytes) (off : Nat) (d : Dinode) {width : Nat} (h : k + width ≤ 12) :
    getLE ((List.finRange (NDIRECT + 2)).foldl
      (fun b i => putLE b (off + 12 + 4 * i.val) 4 (d.addrs i)) b) (off + k) width =
      getLE b (off + k) width :=
  getLE_foldl_putLE_of_disjoint (fun i : Fin (NDIRECT + 2) => off + 12 + 4 * i.val) d.addrs _ b
    fun i _ => .inl (by omega)

theorem getLE_putAddrs_self (b : Bytes) (off : Nat) (h : d.Fits) (i : Fin (NDIRECT + 2)) :
    getLE ((List.finRange (NDIRECT + 2)).foldl
      (fun b i => putLE b (off + 12 + 4 * i.val) 4 (d.addrs i)) b) (off + 12 + 4 * i) 4 =
      d.addrs i := by
  have hpos : (List.finRange (NDIRECT + 2)).Pairwise
      fun i j => off + 12 + 4 * i.val + 4 ≤ off + 12 + 4 * j.val :=
    (List.pairwise_lt_finRange (NDIRECT + 2)).imp fun {i j} hij => by
      have hval : i.val < j.val := hij
      omega
  have hget := getLE_foldl_putLE (fun i : Fin (NDIRECT + 2) => off + 12 + 4 * i.val) d.addrs hpos b
    (List.mem_finRange i)
  rw [hget]
  exact Nat.mod_eq_of_lt (h.addrs i)

theorem getDinode_putDinode (b : Bytes) (off : Nat) (h : d.Fits) :
    getDinode (putDinode b off d) off = d := by
  have hshort : ∀ {k : Nat} (b : Bytes), k + 2 ≤ 12 → getShort ((List.finRange (NDIRECT + 2)).foldl
      (fun b i => putLE b (off + 12 + 4 * i.val) 4 (d.addrs i)) b) (off + k) =
        getShort b (off + k) := fun b hk => congrArg Int16.ofNat (getLE_putAddrs b off d hk)
  have hsize : ∀ b : Bytes, getLE ((List.finRange (NDIRECT + 2)).foldl
      (fun b i => putLE b (off + 12 + 4 * i.val) 4 (d.addrs i)) b) (off + 8) 4 =
        getLE b (off + 8) 4 := fun b => getLE_putAddrs b off d (by decide)
  apply Dinode.ext
  · show getShort (putDinode b off d) (off + 0) = d.type
    rw [putDinode, hshort _ (by decide), getShort_putLE_of_disjoint _ _ (by omega),
      getShort_putShort_of_disjoint _ _ (by omega), getShort_putShort_of_disjoint _ _ (by omega),
      getShort_putShort_of_disjoint _ _ (by omega)]
    exact getShort_putShort b off d.type
  · show getShort (putDinode b off d) (off + 2) = d.major
    rw [putDinode, hshort _ (by decide), getShort_putLE_of_disjoint _ _ (by omega),
      getShort_putShort_of_disjoint _ _ (by omega), getShort_putShort_of_disjoint _ _ (by omega),
      getShort_putShort]
  · show getShort (putDinode b off d) (off + 4) = d.minor
    rw [putDinode, hshort _ (by decide), getShort_putLE_of_disjoint _ _ (by omega),
      getShort_putShort_of_disjoint _ _ (by omega), getShort_putShort]
  · show getShort (putDinode b off d) (off + 6) = d.nlink
    rw [putDinode, hshort _ (by decide), getShort_putLE_of_disjoint _ _ (by omega),
      getShort_putShort]
  · show getLE (putDinode b off d) (off + 8) 4 = d.size
    rw [putDinode, hsize, getLE_putLE_of_lt _ _ h.size]
  · funext i
    exact getLE_putAddrs_self _ off h i

theorem putShort_getShort (b : Bytes) (off : Nat) : putShort b off (getShort b off) = b := by
  have hlt := getLE_lt b off 2
  have hback : (getShort b off).toUInt16.toNat = getLE b off 2 := by
    rw [getShort, Int16.toUInt16_ofNat']
    exact Nat.mod_eq_of_lt hlt
  rw [putShort, hback, putLE_getLE]

theorem putDinode_getDinode (b : Bytes) (off : Nat) : putDinode b off (getDinode b off) = b := by
  simp only [putDinode, getDinode, putShort_getShort, putLE_getLE]
  exact List.foldl_fixed' (fun i => putLE_getLE b _ 4) _

/-- An inode takes 64 bytes. -/
theorem putDinode_of_outside (b : Bytes) (d : Dinode) (h : k < off ∨ off + 64 ≤ k) :
    putDinode b off d k = b k := by
  unfold putDinode
  rw [foldl_putLE_of_outside (fun i : Fin (NDIRECT + 2) => off + 12 + 4 * i.val) d.addrs _ _
    fun i _ => by
      have hi : i.val < 13 := i.isLt
      omega]
  simp only [putShort]
  rw [putLE_of_outside _ _ (by omega), putLE_of_outside _ _ (by omega),
    putLE_of_outside _ _ (by omega), putLE_of_outside _ _ (by omega),
    putLE_of_outside _ _ (by omega)]

theorem getDinode_congr {b b' : Bytes} (h : ∀ k, off ≤ k → k < off + 64 → b k = b' k) :
    getDinode b off = getDinode b' off := by
  have hLE : ∀ k width, k + width ≤ 64 → getLE b (off + k) width = getLE b' (off + k) width :=
    fun k width hk => getLE_congr fun i hi hi' => h i (by omega) (by omega)
  have hshort : ∀ k, k + 2 ≤ 64 → getShort b (off + k) = getShort b' (off + k) :=
    fun k hk => congrArg Int16.ofNat (hLE k 2 hk)
  apply Dinode.ext
  · exact hshort 0 (by decide)
  · exact hshort 2 (by decide)
  · exact hshort 4 (by decide)
  · exact hshort 6 (by decide)
  · exact hLE 8 4 (by decide)
  · funext i
    have hi : i.val < 13 := i.isLt
    show getLE b (off + 12 + 4 * i) 4 = getLE b' (off + 12 + 4 * i) 4
    rw [Nat.add_assoc]
    exact hLE (12 + 4 * i) 4 (by omega)

/-! ## The parts of the disk -/

/-- The first block of the data area. -/
def dataStart (sb : Superblock) : Nat := sb.size - sb.nblocks

/-- `b` is a block of the data area. -/
def InData (sb : Superblock) (b : Nat) : Prop := dataStart sb ≤ b ∧ b < sb.size

instance (sb : Superblock) : DecidablePred (InData sb) :=
  fun _ => inferInstanceAs (Decidable (_ ∧ _))

/-- The parts of the disk follow each other: the superblock in block 1, the
inodes, the free map and the data area. -/
structure Layout (sb : Superblock) : Prop where
  size : sb.size < 2 ^ 32
  inodes : 1 < sb.inodestart
  map : 1 < sb.bmapstart
  inodeBlocks : ∀ i < sb.ninodes, IBLOCK i sb < sb.bmapstart
  mapBlocks : ∀ b < sb.size, BBLOCK b sb < dataStart sb

theorem inodestart_le_iblock (i : Nat) (sb : Superblock) : sb.inodestart ≤ IBLOCK i sb :=
  Nat.le_add_left _ _

theorem bmapstart_le_bblock (b : Nat) (sb : Superblock) : sb.bmapstart ≤ BBLOCK b sb :=
  Nat.le_add_left _ _

namespace Layout

variable {sb : Superblock}

theorem iblock_ne_one (h : Layout sb) (i : Nat) : 1 ≠ IBLOCK i sb := by
  have hle := inodestart_le_iblock i sb
  have hlt := h.inodes
  omega

theorem bblock_ne_one (h : Layout sb) (b : Nat) : 1 ≠ BBLOCK b sb := by
  have hle := bmapstart_le_bblock b sb
  have hlt := h.map
  omega

theorem iblock_ne_bblock (h : Layout sb) (hi : i < sb.ninodes) (b : Nat) :
    IBLOCK i sb ≠ BBLOCK b sb := by
  have hlt := h.inodeBlocks i hi
  have hle := bmapstart_le_bblock b sb
  omega

theorem bblock_ne_data (h : Layout sb) (hb : b < sb.size) (hc : InData sb c) : BBLOCK b sb ≠ c := by
  have hlt := h.mapBlocks b hb
  have hle := hc.1
  omega

theorem iblock_ne_data (h : Layout sb) (hi : i < sb.ninodes) (hc : InData sb c) :
    IBLOCK i sb ≠ c := by
  have h1 := h.inodeBlocks i hi
  have h2 := bmapstart_le_bblock c sb
  have h3 := h.mapBlocks c hc.2
  have h4 := hc.1
  omega

theorem one_ne_data (h : Layout sb) (hc : InData sb c) : 1 ≠ c := by
  have h1 := h.map
  have h2 := bmapstart_le_bblock c sb
  have h3 := h.mapBlocks c hc.2
  have h4 := hc.1
  omega

theorem data_ne_zero (h : Layout sb) (hc : InData sb c) : c ≠ 0 := by
  have h1 := h.mapBlocks c hc.2
  have h2 := hc.1
  omega

end Layout

namespace Disk

variable {fs : Disk}

/-! ## Writes to the data area -/

@[simp] theorem sb_logWrite (fs : Disk) (b : Nat) (data : Bytes) :
    (fs.logWrite b data).sb = fs.sb := rfl

@[simp] theorem block_logWrite_same (fs : Disk) (b : Nat) (data : Bytes) :
    (fs.logWrite b data).block b = data :=
  update_self ..

theorem block_logWrite_of_ne (fs : Disk) (data : Bytes) (h : c ≠ b) :
    (fs.logWrite b data).block c = fs.block c :=
  update_of_ne h ..

theorem marked_congr (hsb : fs'.sb = fs.sb)
    (h : fs'.block (BBLOCK b fs.sb) = fs.block (BBLOCK b fs.sb)) : fs'.marked b = fs.marked b := by
  simp only [marked, hsb, h]

theorem dinode_congr (hsb : fs'.sb = fs.sb)
    (h : fs'.block (IBLOCK i fs.sb) = fs.block (IBLOCK i fs.sb)) : fs'.dinode i = fs.dinode i := by
  simp only [dinode, hsb, h]

theorem marked_logWrite (hl : Layout fs.sb) (hb : InData fs.sb b) (hc : c < fs.sb.size)
    (data : Bytes) : (fs.logWrite b data).marked c = fs.marked c :=
  marked_congr rfl (block_logWrite_of_ne fs data (hl.bblock_ne_data hc hb))

theorem dinode_logWrite (hl : Layout fs.sb) (hb : InData fs.sb b)
    (hi : i < fs.sb.ninodes) (data : Bytes) : (fs.logWrite b data).dinode i = fs.dinode i :=
  dinode_congr rfl (block_logWrite_of_ne fs data (hl.iblock_ne_data hi hb))

theorem readsb_logWrite (hl : Layout fs.sb) (hb : InData fs.sb b) (data : Bytes) :
    (fs.logWrite b data).readsb = fs.readsb :=
  congrArg getSuperblock (block_logWrite_of_ne fs data (hl.one_ne_data hb))

/-! ## Writes to the free map -/

theorem block_setMap_of_ne (fs : Disk) (f : UInt8 → UInt8 → UInt8)
    (h : c ≠ BBLOCK b fs.sb) : (fs.setMap b f).block c = fs.block c :=
  block_logWrite_of_ne fs _ h

theorem dinode_setMap (hl : Layout fs.sb) (hi : i < fs.sb.ninodes) (b : Nat)
    (f : UInt8 → UInt8 → UInt8) : (fs.setMap b f).dinode i = fs.dinode i :=
  dinode_congr rfl (block_setMap_of_ne fs f (hl.iblock_ne_bblock hi b))

theorem readsb_setMap (hl : Layout fs.sb) (b : Nat) (f : UInt8 → UInt8 → UInt8) :
    (fs.setMap b f).readsb = fs.readsb :=
  congrArg getSuperblock (block_setMap_of_ne fs f (hl.bblock_ne_one b))

/-- A change of the free map that touches one bit touches one block. -/
theorem marked_setMap (fs : Disk) (b c : Nat) {f : UInt8 → UInt8 → UInt8} {g : Bool → Bool → Bool}
    (hf : ∀ x bi k, k < 8 →
      (f x (mask bi)).toNat.testBit k = g (x.toNat.testBit k) (decide (bi % 8 = k)))
    (hg : ∀ x, g x false = x) :
    (fs.setMap b f).marked c = g (fs.marked c) (decide (b = c)) := by
  simp only [marked, setMap, sb_logWrite]
  by_cases hblock : BBLOCK c fs.sb = BBLOCK b fs.sb
  · rw [hblock, block_logWrite_same]
    have hdiv : c / BPB = b / BPB := Nat.add_right_cancel hblock
    by_cases hbyte : c % BPB / 8 = b % BPB / 8
    · rw [hbyte, update_self, and_mask_ne_zero, and_mask_ne_zero,
        hf _ _ _ (Nat.mod_lt _ (by decide))]
      congr 1
      simp only [decide_eq_decide]
      simp only [BPB, BSIZE] at hdiv hbyte ⊢
      omega
    · have hne : b ≠ c := fun hbc => hbyte (by rw [hbc])
      rw [update_of_ne hbyte, decide_eq_false hne, hg]
  · have hne : b ≠ c := fun hbc => hblock (by rw [hbc])
    rw [block_logWrite_of_ne fs _ hblock, decide_eq_false hne, hg]

theorem marked_mark (fs : Disk) (b c : Nat) :
    (fs.setMap b (· ||| ·)).marked c = (fs.marked c || decide (b = c)) :=
  marked_setMap fs b c (g := or) (fun x bi k _ => testBit_or_mask x bi k) Bool.or_false

theorem marked_clear (fs : Disk) (b c : Nat) :
    (fs.setMap b fun x m => x &&& ~~~m).marked c = (fs.marked c && !decide (b = c)) :=
  marked_setMap fs b c (g := fun x y => x && !y) (fun x bi _ hk => testBit_and_not_mask x bi hk)
    Bool.and_true

/-! ## Writes to the inodes -/

theorem block_setDinode_of_ne (fs : Disk) (d : Dinode) (h : c ≠ IBLOCK i fs.sb) :
    (fs.setDinode i d).block c = fs.block c :=
  block_logWrite_of_ne fs _ h

@[simp] theorem sb_setDinode (fs : Disk) (i : Nat) (d : Dinode) :
    (fs.setDinode i d).sb = fs.sb := rfl

theorem marked_setDinode (hl : Layout fs.sb) (hi : i < fs.sb.ninodes) (b : Nat)
    (d : Dinode) : (fs.setDinode i d).marked b = fs.marked b :=
  marked_congr rfl (block_setDinode_of_ne fs d (hl.iblock_ne_bblock hi b).symm)

theorem readsb_setDinode (hl : Layout fs.sb) (i : Nat) (d : Dinode) :
    (fs.setDinode i d).readsb = fs.readsb :=
  congrArg getSuperblock (block_setDinode_of_ne fs d (hl.iblock_ne_one i))

theorem dinode_setDinode_same (fs : Disk) (i : Nat) (h : d.Fits) :
    (fs.setDinode i d).dinode i = d := by
  simp only [dinode, setDinode, sb_logWrite, block_logWrite_same]
  exact getDinode_putDinode _ _ h

theorem dinode_setDinode_of_ne (fs : Disk) {j : Nat} (d : Dinode) (h : j ≠ i) :
    (fs.setDinode i d).dinode j = fs.dinode j := by
  by_cases hblock : IBLOCK j fs.sb = IBLOCK i fs.sb
  · have hdiv : j / IPB = i / IPB := Nat.add_right_cancel hblock
    simp only [dinode, setDinode, sb_logWrite, hblock, block_logWrite_same]
    refine getDinode_congr fun k hk hk' => putDinode_of_outside _ d ?_
    simp only [IPB, BSIZE] at hdiv hk hk' ⊢
    omega
  · exact dinode_congr rfl (block_setDinode_of_ne fs d hblock)

/-! ## The allocator -/

/-- The superblock is the one on the disk, the parts of the disk are in their
places, and the blocks before the data area are in use. -/
structure Sound (fs : Disk) : Prop where
  layout : Layout fs.sb
  readsb : fs.readsb = fs.sb
  reserved : ∀ b < dataStart fs.sb, b < fs.sb.size → fs.marked b = true

/-- The number of free blocks. -/
def free (fs : Disk) : Nat := ((range fs.sb.size).filter fun b => fs.marked b = false).card

/-- What the two kinds of writes of the allocator and writes to the data area
leave alone. -/
structure SameMeta (fs fs' : Disk) : Prop where
  sb : fs'.sb = fs.sb
  readsb : fs'.readsb = fs.readsb
  dinode : ∀ i < fs.sb.ninodes, fs'.dinode i = fs.dinode i

theorem SameMeta.refl (fs : Disk) : SameMeta fs fs := ⟨rfl, rfl, fun _ _ => rfl⟩

theorem SameMeta.trans {fs1 fs2 : Disk} (h1 : SameMeta fs fs1) (h2 : SameMeta fs1 fs2) :
    SameMeta fs fs2 where
  sb := h2.sb.trans h1.sb
  readsb := h2.readsb.trans h1.readsb
  dinode i hi := (h2.dinode i (h1.sb ▸ hi)).trans (h1.dinode i hi)

theorem SameMeta.layout (h : SameMeta fs fs') (hl : Layout fs.sb) : Layout fs'.sb :=
  h.sb ▸ hl

theorem sameMeta_logWrite (hl : Layout fs.sb) (hb : InData fs.sb b) (data : Bytes) :
    SameMeta fs (fs.logWrite b data) :=
  ⟨rfl, readsb_logWrite hl hb data, fun _ hi => dinode_logWrite hl hb hi data⟩

theorem sameMeta_setMap (hl : Layout fs.sb) (b : Nat) (f : UInt8 → UInt8 → UInt8) :
    SameMeta fs (fs.setMap b f) :=
  ⟨rfl, readsb_setMap hl b f, fun _ hi => dinode_setMap hl hi b f⟩

/-- The block `b`, which was free, is in use. -/
structure Marks (fs : Disk) (b : Nat) (fs' : Disk) : Prop where
  data : InData fs.sb b
  free : fs.marked b = false
  same : SameMeta fs fs'
  marked : ∀ c < fs.sb.size, fs'.marked c = (fs.marked c || decide (b = c))

/-- The block `b`, which was free, is in use and zero. -/
structure Takes (fs : Disk) (b : Nat) (fs' : Disk) : Prop extends Marks fs b fs' where
  zero : fs'.block b = fun _ => 0
  block : ∀ c, InData fs.sb c → c ≠ b → fs'.block c = fs.block c

theorem takes_of_balloc (hs : Sound fs) (h : fs.balloc = .ok (fs', b)) : Takes fs b fs' := by
  unfold balloc at h
  split at h
  · contradiction
  next _ hfind =>
  cases h
  have hlt : b < fs.sb.size := List.mem_range.mp (List.mem_of_find?_eq_some hfind)
  have hfree : fs.marked b = false := by simpa using List.find?_some hfind
  have hdata : InData fs.sb b := by
    refine ⟨?_, hlt⟩
    by_contra hle
    rw [hs.reserved b (by omega) hlt] at hfree
    contradiction
  have hmap := sameMeta_setMap hs.layout b (· ||| ·)
  have hzero := @sameMeta_logWrite b (fs.setMap b (· ||| ·)) hs.layout hdata fun _ => 0
  refine ⟨⟨hdata, hfree, hmap.trans hzero, fun c hc => ?_⟩, ?_, fun c hc hcb => ?_⟩
  · have hkeep := @marked_logWrite b c (fs.setMap b (· ||| ·)) hs.layout hdata hc fun _ => 0
    rw [bzero, hkeep, marked_mark]
  · exact block_logWrite_same _ b _
  · rw [bzero, block_logWrite_of_ne _ _ hcb,
      block_setMap_of_ne fs _ (hs.layout.bblock_ne_data hlt hc).symm]

theorem balloc_of_free (h : 0 < fs.free) : ∃ fs' b, fs.balloc = .ok (fs', b) := by
  unfold balloc
  split
  · next hnone =>
    obtain ⟨b, hb⟩ := card_pos.mp h
    obtain ⟨hlt, hfree⟩ := mem_filter.mp hb
    have hall := List.find?_eq_none.mp hnone b (List.mem_range.mpr (mem_range.mp hlt))
    simp [hfree] at hall
  · exact ⟨_, _, rfl⟩

theorem Marks.sound (h : Marks fs b fs') (hs : Sound fs) : Sound fs' where
  layout := h.same.layout hs.layout
  readsb := h.same.readsb.trans (hs.readsb.trans h.same.sb.symm)
  reserved c hc hlt := by
    rw [h.same.sb] at hc hlt
    rw [h.marked c hlt, hs.reserved c hc hlt, Bool.true_or]

theorem Marks.free_eq (h : Marks fs b fs') : fs'.free + 1 = fs.free := by
  have herase : (range fs'.sb.size).filter (fun c => fs'.marked c = false) =
      ((range fs.sb.size).filter fun c => fs.marked c = false).erase b := by
    ext c
    simp only [mem_filter, mem_range, mem_erase, h.same.sb]
    constructor
    · rintro ⟨hlt, hc⟩
      rw [h.marked c hlt, Bool.or_eq_false_iff, decide_eq_false_iff_not] at hc
      exact ⟨fun hcb => hc.2 hcb.symm, hlt, hc.1⟩
    · rintro ⟨hne, hlt, hc⟩
      rw [h.marked c hlt, hc, Bool.false_or, decide_eq_false_iff_not]
      exact ⟨hlt, fun hbc => hne hbc.symm⟩
  have hmem : b ∈ (range fs.sb.size).filter fun c => fs.marked c = false := by
    simp [h.data.2, h.free]
  rw [Disk.free, herase, Disk.free]
  exact card_erase_add_one hmem

/-- The block `b`, which was in use, is free. -/
structure Gives (fs : Disk) (b : Nat) (fs' : Disk) : Prop where
  same : SameMeta fs fs'
  marked : ∀ c < fs.sb.size, fs'.marked c = (fs.marked c && !decide (b = c))
  block : ∀ c, InData fs.sb c → fs'.block c = fs.block c

theorem bfree_eq (hs : Sound fs) (b : Nat) :
    fs.bfree b = if fs.marked b = false then .error .bfree
      else .ok (fs.setMap b fun x m => x &&& ~~~m) := by
  have hsb : { fs with sb := fs.readsb } = fs := by rw [hs.readsb]
  unfold bfree
  simp only [hsb]

theorem gives_of_bfree (hs : Sound fs) (hb : b < fs.sb.size)
    (h : fs.bfree b = .ok fs') : Gives fs b fs' := by
  rw [bfree_eq hs] at h
  split at h
  · contradiction
  · cases h
    exact ⟨sameMeta_setMap hs.layout b _, fun c _ => marked_clear fs b c,
      fun c hc => block_setMap_of_ne fs _ (hs.layout.bblock_ne_data hb hc).symm⟩

end Disk
end Fs
end Xv6

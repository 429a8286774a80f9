import Xv6.Mkfs
import Xv6.Fs.Write

/-!
# Xv6.Mkfs.Agree

`mkfs` and the kernel agree on the layout of a file, as far as the indirect block
goes: on the disk that `mkfs` would leave behind if it stopped now, `balloc`,
`bmap` and `writei` at the end of a file do what `iappend` does.
-/

namespace Xv6

open Function

open Lib Fs Disk Mkfs

namespace Mkfs

namespace Image

/-- The sectors with the free map that `balloc` would write now. -/
def final (im : Image) : Nat → Bytes :=
  update im.sect sb.bmapstart (bitmap im.freeblock)

/-- The kernel sees the image with its free map. -/
structure Shows (fs : Disk) (im : Image) : Prop where
  block : fs.block = im.final
  sb : fs.sb = sb

/-- The blocks that are not yet taken are zero. -/
structure Ready (im : Image) : Prop where
  nmeta_le : nmeta ≤ im.freeblock
  le_size : im.freeblock ≤ FSSIZE
  zero : ∀ b, im.freeblock ≤ b → im.sect b = fun _ => 0

variable {fs fs' : Disk} {im im' : Image} {b : Nat}

/-! ## The free map -/

theorem bitmap_succ (k : Nat) : bitmap (k + 1) =
    update (bitmap k) (k / 8) (bitmap k (k / 8) ||| mask k) := by
  simp only [bitmap, List.range_succ, List.foldl_append, List.foldl_cons, List.foldl_nil]

theorem final_bmapstart (im : Image) : im.final sb.bmapstart = bitmap im.freeblock := by
  rw [final, update_self]

theorem final_of_ne (im : Image) (h : b ≠ sb.bmapstart) : im.final b = im.sect b := by
  rw [final, update_of_ne h]

theorem sect_wsect_same (im : Image) (b : Nat) (data : Bytes) :
    (im.wsect b data).sect b = data := by
  simp [wsect]

theorem sect_wsect_of_ne (im : Image) {c : Nat} (data : Bytes) (h : c ≠ b) :
    (im.wsect b data).sect c = im.sect c := by
  simp [wsect, h]

theorem bblock_eq (hb : b < BPB) : BBLOCK b sb = sb.bmapstart := by
  rw [BBLOCK, Nat.div_eq_of_lt hb, Nat.zero_add]

theorem marked_bitmap {k : Nat} (hsb : fs.sb = sb) (hmap : fs.block sb.bmapstart = bitmap k)
    (hk : k ≤ BPB) (hb : b < BPB) : fs.marked b = decide (b < k) := by
  induction k generalizing fs with
  | zero =>
    have hzero : bitmap 0 = fun _ => 0 := rfl
    simp only [marked, hsb, bblock_eq hb, hmap, hzero]
    simp
  | succ k ih =>
    have hlt : k < BPB := hk
    let fs0 := { fs with block := update fs.block sb.bmapstart (bitmap k) }
    have hblock : fs0.block sb.bmapstart = bitmap k :=
      update_self sb.bmapstart (bitmap k) fs.block
    -- the map for one block more is the map with one bit set
    have hset : (fs0.setMap k (· ||| ·)).block sb.bmapstart = bitmap (k + 1) := by
      have hbb : BBLOCK k fs0.sb = sb.bmapstart := by rw [hsb, bblock_eq hlt]
      rw [setMap, hbb, block_logWrite_same, hblock, Nat.mod_eq_of_lt hlt, bitmap_succ]
    have hsame : fs.marked b = (fs0.setMap k (· ||| ·)).marked b := by
      refine marked_congr rfl ?_
      show fs.block (BBLOCK b fs.sb) = (fs0.setMap k (· ||| ·)).block (BBLOCK b fs.sb)
      rw [hsb, bblock_eq hb, hset, hmap]
    rw [hsame, marked_mark, @ih fs0 hsb hblock (by omega)]
    by_cases hbk : k = b
    · simp [hbk]
    · simp only [hbk, decide_false, Bool.or_false]
      exact decide_eq_decide.mpr (by omega)

theorem Shows.marked (h : Shows fs im) (hr : Ready im) (hb : b < BPB) :
    fs.marked b = decide (b < im.freeblock) := by
  have hle := hr.le_size
  refine marked_bitmap h.sb (by rw [h.block, final_bmapstart]) ?_ hb
  exact Nat.le_trans hle (by decide)

theorem final_succ (im : Image) (hlt : im.freeblock < BPB) (hsb : fs.sb = sb)
    (hblock : fs.block = im.final) :
    (fs.setMap im.freeblock (· ||| ·)).block = final { im with freeblock := im.freeblock + 1 } := by
  have hbb : BBLOCK im.freeblock fs.sb = sb.bmapstart := by rw [hsb, bblock_eq hlt]
  funext c
  by_cases hc : c = sb.bmapstart
  · rw [hc, final_bmapstart, setMap, hbb, block_logWrite_same, hblock, final_bmapstart,
      Nat.mod_eq_of_lt hlt, bitmap_succ]
  · rw [block_setMap_of_ne fs _ (by rwa [hbb]), hblock, final_of_ne _ hc, final_of_ne _ hc]

/-! ## The kernel's allocator -/

theorem Shows.logWrite (h : Shows fs im) (hb : b ≠ Mkfs.sb.bmapstart) (data : Bytes) :
    Shows (fs.logWrite b data) (im.wsect b data) := by
  refine ⟨?_, h.sb⟩
  funext c
  by_cases hc : c = b
  · rw [hc, block_logWrite_same, final_of_ne _ hb, sect_wsect_same]
  rw [block_logWrite_of_ne fs data hc, h.block]
  by_cases hmap : c = Mkfs.sb.bmapstart
  · rw [hmap, final_bmapstart, final_bmapstart]
    rfl
  · rw [final_of_ne _ hmap, final_of_ne _ hmap, sect_wsect_of_ne im data hc]

/-- The kernel takes the block that `mkfs` takes next. -/
theorem Shows.balloc (h : Shows fs im) (hr : Ready im) (hb : fs.balloc = .ok (fs', b)) :
    b = im.freeblock ∧ im.freeblock < FSSIZE ∧
      Shows fs' { im with freeblock := im.freeblock + 1 } ∧
      Ready { im with freeblock := im.freeblock + 1 } := by
  have hmarked : ∀ c < FSSIZE, fs.marked c = decide (c < im.freeblock) := fun c hc =>
    h.marked hr (Nat.lt_of_lt_of_le hc (by decide))
  unfold Disk.balloc at hb
  split at hb
  · contradiction
  next c hfind =>
  cases hb
  obtain ⟨hfree, hmem, hfirst⟩ := List.find?_range_eq_some.mp hfind
  have hlt : b < FSSIZE := by
    rwa [h.sb, List.mem_range] at hmem
  -- it is the first block that is not marked
  obtain rfl : b = im.freeblock := by
    have hge : im.freeblock ≤ b := by simpa [hmarked b hlt] using hfree
    by_contra hne
    have hprev := hfirst im.freeblock (by omega)
    simp [hmarked im.freeblock (by omega)] at hprev
  refine ⟨rfl, hlt, ⟨?_, h.sb⟩, ?_⟩
  · funext c
    have hset := final_succ im (Nat.lt_of_lt_of_le hlt (by decide)) h.sb h.block
    by_cases hc : c = im.freeblock
    · have hdata : im.freeblock ≠ Mkfs.sb.bmapstart := by
        have hle := hr.nmeta_le
        have hmap : Mkfs.sb.bmapstart < nmeta := by decide
        omega
      rw [hc, bzero, block_logWrite_same, final_of_ne _ hdata]
      exact (hr.zero im.freeblock le_rfl).symm
    · rw [bzero, block_logWrite_of_ne _ _ hc, hset]
  · exact ⟨Nat.le_succ_of_le hr.nmeta_le, hlt, fun c hc => hr.zero c (Nat.le_of_succ_le hc)⟩

theorem ne_bmapstart (h : nmeta ≤ b) : b ≠ sb.bmapstart := by
  have hmap : sb.bmapstart < nmeta := by decide
  omega

/-- The blocks of an inode are those of `mkfs`, and taken. -/
theorem Shows.owned (h : Shows fs im) (hr : Ready im) {I : Table} (ho : fs.Owned I) {x : Place}
    (hx : fs.held I x ≠ 0) :
    nmeta ≤ fs.held I x ∧ fs.held I x < im.freeblock ∧
      fs.block (fs.held I x) = im.sect (fs.held I x) := by
  have harea := ho.mem_area x hx
  have hmarked := (ho.mem_used x hx).2
  rw [Set.mem_ofPred_eq, h.sb] at harea
  have hge : nmeta ≤ fs.held I x := harea.1
  have hlt : fs.held I x < FSSIZE := harea.2
  rw [h.marked hr (Nat.lt_of_lt_of_le hlt (by decide)), decide_eq_true_iff] at hmarked
  exact ⟨hge, hmarked, by rw [h.block, final_of_ne _ (ne_bmapstart hge)]⟩

theorem Ready.wsect (hr : Ready im) (hb : b < im.freeblock) (data : Bytes) :
    Ready (im.wsect b data) where
  nmeta_le := hr.nmeta_le
  le_size := hr.le_size
  zero c hc := by
    rw [sect_wsect_of_ne im data (by rintro rfl; exact absurd hb (Nat.not_lt.mpr hc))]
    exact hr.zero c hc

theorem rsect_of_lt (h : b < FSSIZE) : im.rsect b = .ok (im.sect b) := if_pos h

/-! ## The block map -/

variable {I : Table} {ino a : Nat} {ip ip' : Fs.Inode}

theorem Shows.addr (h : Shows fs im) (hr : Ready im) {i : Fin (NDIRECT + 2)}
    (hb : fs.inodeEntry ip i = .ok (fs', ip', a)) :
    ∃ im', im.addr ip.toDinode i = (im', ip'.toDinode) ∧ ip'.addrs i = a ∧ Shows fs' im' ∧
      Ready im' ∧ im'.sect = im.sect := by
  unfold inodeEntry at hb
  unfold Image.addr
  split at hb
  · next hzero =>
    obtain ⟨⟨fs1, c⟩, hballoc, hb⟩ := bind_eq_ok.mp hb
    cases hb
    obtain ⟨rfl, -, hshows, hready⟩ := h.balloc hr hballoc
    exact ⟨_, if_pos hzero, update_self .., hshows, hready, rfl⟩
  · next hne =>
    cases hb
    exact ⟨im, if_neg hne, rfl, h, hr, rfl⟩

/-- A meta block, or a block of another inode than `ino`. -/
def Foreign (fs : Disk) (I : Table) (ino b : Nat) : Prop :=
  b < nmeta ∨ ∃ x : Place, x.1 ≠ ino ∧ fs.held I x ≠ 0 ∧ fs.held I x = b

theorem Foreign.ne (h : Foreign fs I ino b) (ho : fs.Owned I) {l : Loc}
    (hge : nmeta ≤ fs.held I (ino, l)) : b ≠ fs.held I (ino, l) := by
  cases h with
  | inl hlt => omega
  | inr hx =>
    obtain ⟨x, hx, hne, rfl⟩ := hx
    exact fun heq => hx (congrArg Prod.fst (ho.inj x (ino, l) hne heq))

theorem Foreign.keep {I' : Table} (h : Foreign fs I ino b)
    (hframe : ∀ x : Place, x.1 ≠ ino → fs'.held I' x = fs.held I x) : Foreign fs' I' ino b := by
  cases h with
  | inl hlt => exact .inl hlt
  | inr hx =>
    obtain ⟨x, hx, hne, rfl⟩ := hx
    exact .inr ⟨x, hx, by rwa [hframe x hx], hframe x hx⟩

/-- **`iappend` takes the blocks that `bmap` takes**, up to the indirect block. -/
theorem Shows.sector (h : Shows fs im) (hr : Ready im) (hs : fs.Sound) (ho : fs.Owned I)
    (hI : I ino = some ip.toDinode) {fbn : Nat} (hfbn : fbn < NDIRECT + NINDIRECT)
    (hb : fs.bmap ip fbn = .ok (fs', ip', a)) :
    ∃ im', im.sector ip.toDinode fbn = .ok (im', ip'.toDinode, a) ∧ Shows fs' im' ∧ Ready im' ∧
      ∀ b, Foreign fs I ino b → im'.sect b = im.sect b := by
  unfold bmap at hb
  unfold Image.sector
  by_cases hd : fbn < NDIRECT
  · rw [dif_pos hd] at hb ⊢
    obtain ⟨im', haddr, ha, hshows, hready, hsect⟩ := h.addr hr hb
    simp only [haddr, ha]
    exact ⟨im', rfl, hshows, hready, fun b _ => by rw [hsect]⟩
  · rw [dif_neg hd] at hb ⊢
    have hind : fbn - NDIRECT < NINDIRECT := by omega
    simp only [if_pos hind] at hb
    obtain ⟨⟨fs1, ip1, x⟩, h1, hb⟩ := bind_eq_ok.mp hb
    obtain ⟨⟨fs2, c⟩, h2, hb⟩ := bind_eq_ok.mp hb
    cases hb
    obtain ⟨im1, haddr, hx, hshows1, hready1, hsect1⟩ := h.addr hr h1
    obtain ⟨hreach, -⟩ := inodeEntry_reaches hs ho hI h1
    obtain ⟨hge, hlt, hblock⟩ := hshows1.owned hready1 hreach.owned
      (x := (ino, .top ⟨NDIRECT, indirect_lt⟩)) (by rw [hreach.here]; exact hreach.ne_zero)
    have hforeign : ∀ b, Foreign fs I ino b → b ≠ x := fun b hb => by
      have hne := (hb.keep hreach.frame).ne hreach.owned hge
      rwa [hreach.here] at hne
    rw [hreach.here] at hge hlt hblock
    simp only [haddr, hx]
    rw [rsect_of_lt (Nat.lt_of_lt_of_le hlt hready1.le_size), ok_bind, if_neg (by omega), ← hblock]
    unfold indexEntry at h2
    by_cases hzero : getWord (fs1.block x) (fbn - NDIRECT) = 0
    · rw [if_pos hzero] at h2 ⊢
      obtain ⟨⟨fs3, e⟩, hballoc, h2⟩ := bind_eq_ok.mp h2
      cases h2
      obtain ⟨rfl, -, hshows3, hready3⟩ := hshows1.balloc hready1 hballoc
      have hkeep : fs3.block x = fs1.block x := by
        rw [hshows3.block, final_of_ne _ (ne_bmapstart hge), hblock]
      rw [hkeep]
      refine ⟨_, rfl, hshows3.logWrite (ne_bmapstart hge) _, hready3.wsect ?_ _, fun b hb => ?_⟩
      · exact Nat.lt_succ_of_lt hlt
      · rw [sect_wsect_of_ne _ _ (hforeign b hb), ← hsect1]
    · rw [if_neg hzero] at h2 ⊢
      cases h2
      exact ⟨im1, rfl, hshows1, hready1, fun b _ => by rw [hsect1]⟩

/-! ## Appending -/

theorem Shows.appendLoop (h : Shows fs im) (hr : Ready im) (hs : fs.Sound) (ho : fs.Owned I)
    (hI : I ino = some ip.toDinode) {src : Bytes} {tot off off' n fuel : Nat}
    (hmax : off + (n - tot) ≤ (NDIRECT + NINDIRECT) * BSIZE)
    (hb : fs.writeLoop ip src tot off n fuel = .ok (fs', ip', off')) :
    ∃ im', im.appendLoop ip.toDinode (fun i => src (tot + i)) off (n - tot) fuel =
        .ok (im', ip'.toDinode, off') ∧ Shows fs' im' ∧ Ready im' ∧
      ∀ b, Foreign fs I ino b → im'.sect b = im.sect b := by
  induction fuel generalizing fs I ip im tot off with
  | zero =>
    cases hb
    exact ⟨im, rfl, h, hr, fun _ _ => rfl⟩
  | succ fuel ih =>
    unfold writeLoop at hb
    unfold Image.appendLoop
    by_cases hlt : tot < n
    · rw [if_pos hlt] at hb
      rw [if_pos (by omega)]
      have hfbn : off / BSIZE < NDIRECT + NINDIRECT :=
        Nat.div_lt_of_lt_mul (by rw [Nat.mul_comm]; omega)
      have hmaxfile : off / BSIZE < MAXFILE := Nat.lt_of_lt_of_le hfbn (by decide)
      obtain ⟨⟨fs1, ip1, a⟩, hbmap, hb⟩ := bind_eq_ok.mp hb
      obtain ⟨hmaps, -⟩ := bmap_maps hs ho hI hbmap
      obtain ⟨im1, hsector, hshows1, hready1, hsect1⟩ := h.sector hr hs ho hI hfbn hbmap
      have hne := hmaps.here ▸ hmaps.ne_zero
      obtain ⟨hge, hused, hblock⟩ := hshows1.owned hready1 hmaps.owned hne
      have hworks := fun data => works_logWrite hmaps.sound hmaps.owned
        (locOf_data (off / BSIZE)) hne data
      have hforeign : ∀ b, Foreign fs I ino b → b ≠ a := fun b hb => by
        have hb' := (hb.keep hmaps.frame).ne hmaps.owned hge
        rwa [hmaps.here] at hb'
      rw [hmaps.here] at hge hused hblock hworks
      simp only at hb ⊢
      have hm : min (n - tot) ((off / BSIZE + 1) * BSIZE - off) =
          min (n - tot) (BSIZE - off % BSIZE) := by
        simp only [BSIZE]
        omega
      have hoff : off - off / BSIZE * BSIZE = off % BSIZE := by
        simp only [BSIZE]
        omega
      rw [if_pos hmaxfile, hsector, ok_bind]
      simp only
      rw [hm, hoff, rsect_of_lt (Nat.lt_of_lt_of_le hused hready1.le_size), ok_bind, ← hblock]
      generalize min (n - tot) (BSIZE - off % BSIZE) = m at hb hm ⊢
      obtain ⟨im', hok, hshows', hready', hsect'⟩ := ih (hshows1.logWrite (ne_bmapstart hge) _)
        (hready1.wsect hused _) (hworks _).sound (hworks _).owned (table_self I ino ip1)
        (by omega) hb
      have hsrc : (fun i => src (tot + (m + i))) = fun i => src (tot + m + i) := by
        simp only [Nat.add_assoc]
      refine ⟨im', by rwa [hsrc, Nat.sub_sub], hshows', hready', fun b hb => ?_⟩
      rw [hsect' b ((hb.keep hmaps.frame).keep (hworks _).frame),
        sect_wsect_of_ne _ _ (hforeign b hb), hsect1 b hb]
    · rw [if_neg hlt] at hb
      cases hb
      rw [if_neg (by omega)]
      exact ⟨im, rfl, h, hr, fun _ _ => rfl⟩

variable {inum : Nat}

theorem iblock_lt (h : inum < NINODES) :
    IBLOCK inum sb < FSSIZE ∧ IBLOCK inum sb ≠ sb.bmapstart := by
  simp only [IBLOCK, sb, NINODES, FSSIZE, IPB, BSIZE, nlog, LOGSIZE, MAXOPBLOCKS, ninodeblocks] at *
  omega

theorem Shows.rinode (h : Shows fs im) (hinum : inum < NINODES) :
    im.rinode inum = .ok (fs.dinode inum) := by
  obtain ⟨hlt, hne⟩ := iblock_lt hinum
  rw [Image.rinode, rsect_of_lt hlt, dinode, h.sb, h.block, final_of_ne _ hne]
  rfl

theorem block_setDinode_self (fs : Disk) (inum : Nat) :
    (fs.setDinode inum (fs.dinode inum)).block = fs.block := by
  rw [setDinode, dinode, putDinode_getDinode]
  exact update_eq_self _ _

theorem Shows.winode (h : Shows fs im) (hr : Ready im) (hinum : inum < NINODES) (d : Dinode) :
    ∃ im', im.winode inum d = .ok im' ∧ Shows (fs.setDinode inum d) im' ∧ Ready im' ∧
      im'.freeblock = im.freeblock ∧ im'.freeinode = im.freeinode ∧
      ∀ b, b ≠ IBLOCK inum Mkfs.sb → im'.sect b = im.sect b := by
  obtain ⟨hlt, hne⟩ := iblock_lt hinum
  have hblock : fs.block (IBLOCK inum Mkfs.sb) = im.sect (IBLOCK inum Mkfs.sb) := by
    rw [h.block, final_of_ne _ hne]
  refine ⟨im.wsect (IBLOCK inum Mkfs.sb) (putDinode (im.sect (IBLOCK inum Mkfs.sb))
    (inum % IPB * 64) d), by rw [Image.winode, rsect_of_lt hlt]; rfl, ?_, ?_, rfl, rfl,
    fun b hb => sect_wsect_of_ne im _ hb⟩
  · rw [setDinode, h.sb, hblock]
    exact h.logWrite hne _
  · refine hr.wsect ?_ _
    have hmeta := hr.nmeta_le
    simp only [IBLOCK, Mkfs.sb, NINODES, IPB, BSIZE, nmeta, nlog, LOGSIZE, MAXOPBLOCKS,
      ninodeblocks] at *
    omega

/-- **`iappend` is the kernel's `writei` at the end of the file**, as long as the
indirect block is enough. -/
theorem Shows.iappend (h : Shows fs im) (hr : Ready im) (hs : fs.Sound) (ho : fs.Owned I)
    (hI : I ip.inum = some ip.toDinode) (hino : ip.inum < NINODES) (hdev : ip.type ≠ T_DEV)
    (hdisk : fs.dinode ip.inum = ip.toDinode) {p : Bytes} {n : Nat} {r : Int}
    (hmax : ip.size + n ≤ (NDIRECT + NINDIRECT) * BSIZE)
    (hb : fs.writei ip p ip.size n = .ok (fs', ip', r)) :
    ∃ im', im.iappend ip.inum p n = .ok im' ∧ Shows fs' im' ∧ Ready im' ∧
      ∀ b, Foreign fs I ip.inum b → b ≠ IBLOCK ip.inum Mkfs.sb → im'.sect b = im.sect b := by
  have hsum : uint (ip.size + n) = ip.size + n :=
    Nat.mod_eq_of_lt (Nat.lt_of_le_of_lt hmax (by decide))
  have hmaxfile : ip.size + n ≤ MAXFILE * BSIZE := Nat.le_trans hmax (by decide)
  unfold writei at hb
  rw [if_neg hdev, hsum, if_neg (by omega), if_neg (by omega)] at hb
  obtain ⟨⟨fs1, ip1, off'⟩, hloop, hb⟩ := bind_eq_ok.mp hb
  obtain ⟨hw, hip1, hoff'⟩ :=
    writeLoop_writes hs ho hI (Nat.zero_le n) (by omega) hmaxfile hloop
  obtain ⟨im1, happend, hshows1, hready1, hsect1⟩ := h.appendLoop hr hs ho hI (by omega) hloop
  have hsize : ip1.size = ip.size := by rw [hip1]
  have hinum : ip1.inum = ip.inum := by rw [hip1]
  obtain ⟨im2, hwinode, hshows2, hready2, -, -, hsect2⟩ :=
    hshows1.winode hready1 hino { ip1.toDinode with size := off' }
  simp only [Nat.zero_add, Nat.sub_zero] at happend
  refine ⟨im2, ?_, ?_, hready2, fun b hb hne => by rw [hsect2 b hne, hsect1 b hb]⟩
  · rw [Image.iappend, h.rinode hino, ok_bind, hdisk, happend, ok_bind]
    exact hwinode
  · simp only [hoff', hsize] at hb
    by_cases hn : n > 0
    · rw [if_pos ⟨hn, by omega⟩] at hb
      cases hb
      rw [iupdate, hinum, ← hoff']
      exact hshows2
    · -- nothing was appended: the inode is written as it is
      rw [if_neg fun hgrow => hn hgrow.1] at hb
      cases hb
      obtain rfl : n = 0 := by omega
      have hidle : fs.writeLoop ip p 0 ip.size 0 0 = .ok (fs, ip, ip.size) := rfl
      rw [hidle] at hloop
      cases hloop
      have hself : ({ ip.toDinode with size := ip.size } : Dinode) = fs.dinode ip.inum := hdisk.symm
      rw [hself] at hshows2
      exact ⟨by rw [← hshows2.block, block_setDinode_self], h.sb⟩

end Image
end Mkfs
end Xv6

import Xv6.Fs.Bmap

/-!
# Xv6.Fs.Content

The content of an inode as a list of bytes: `readi` reads from it, and `writei`
splices bytes into it, across the direct, indirect and double-indirect blocks.
-/

namespace Xv6

open Lib List

namespace Fs

/-! ## The abstract file -/

/-- What reading `n` bytes at `off` from a file with content `c` returns, and
the buffer after it. -/
def readResult (c : List UInt8) (dst : Bytes) (off n : Nat) : Int × Bytes :=
  if off > c.length ∨ uint (off + n) < off then (-1, dst)
  else
    let m := min n (c.length - off)
    ((m : Int), copyTo dst 0 (fun i => c.getD (off + i) 0) m)

/-- The content `c` with the first `n` bytes of `src` put at `off`. -/
def splice (c : List UInt8) (off : Nat) (src : Bytes) (n : Nat) : List UInt8 :=
  c.take off ++ (range n).map src ++ c.drop (off + n)

variable {c : List UInt8} {off : Nat}

theorem length_splice (src : Bytes) (n : Nat) (h : off ≤ c.length) :
    (splice c off src n).length = max c.length (off + n) := by
  simp only [splice, length_append, length_take, length_map, length_range,
    length_drop]
  omega

theorem getD_splice (src : Bytes) (n : Nat) (h : off ≤ c.length)
    (i : Nat) : (splice c off src n).getD i 0 =
      if off ≤ i ∧ i < off + n then src (i - off) else c.getD i 0 := by
  have htake : (c.take off).length = off := by
    rw [length_take]
    omega
  have hmap : ((range n).map src).length = n := by simp
  simp only [splice, append_assoc, getD_eq_getElem?_getD]
  by_cases hlo : i < off
  · rw [if_neg (by omega), getElem?_append_left (by omega), getElem?_take_of_lt hlo]
  rw [getElem?_append_right (by omega), htake]
  by_cases hhi : i < off + n
  · rw [if_pos (by omega), getElem?_append_left (by omega)]
    simp [getElem?_range (show i - off < n by omega)]
  · rw [if_neg (by omega), getElem?_append_right (by omega), hmap, getElem?_drop]
    congr 2
    omega

namespace Disk

variable {fs fs' fs1 : Disk} {I I' I1 : Table} {ino : Nat} {ip ip' : Inode} {d : Dinode}

/-- Byte `i` of a file. -/
def byteAt (fs : Disk) (d : Dinode) (i : Nat) : UInt8 :=
  if fs.ptr d (locOf (i / BSIZE)) = 0 then 0
  else fs.block (fs.ptr d (locOf (i / BSIZE))) (i % BSIZE)

/-- The content of an inode. -/
def content (fs : Disk) (d : Dinode) : List UInt8 := (range d.size).map (fs.byteAt d)

@[simp] theorem length_content (fs : Disk) (d : Dinode) : (fs.content d).length = d.size := by
  simp [content]

theorem getD_content (fs : Disk) (d : Dinode) {i : Nat} (h : i < d.size) :
    (fs.content d).getD i 0 = fs.byteAt d i := by
  simp [content, getD_eq_getElem?_getD, getElem?_range h]

/-- The blocks of the file below its size are allocated. -/
structure Dense (fs : Disk) (d : Dinode) : Prop where
  size : d.size ≤ MAXFILE * BSIZE
  ptr : ∀ bn, bn * BSIZE < d.size → fs.ptr d (locOf bn) ≠ 0

theorem Dense.ptr_div (h : Dense fs d) {i : Nat} (hi : i < d.size) :
    fs.ptr d (locOf (i / BSIZE)) ≠ 0 := by
  refine h.ptr _ (Nat.lt_of_le_of_lt ?_ hi)
  exact Nat.div_mul_le_self i BSIZE

/-! ## readi -/

theorem div_add_of_lt {off i : Nat} (h : i < BSIZE - off % BSIZE) :
    (off + i) / BSIZE = off / BSIZE ∧ (off + i) % BSIZE = off % BSIZE + i := by
  simp only [BSIZE] at h ⊢
  omega

theorem div_lt_maxfile {i : Nat} (h : i < MAXFILE * BSIZE) : i / BSIZE < MAXFILE :=
  Nat.div_lt_of_lt_mul (by rwa [Nat.mul_comm])

theorem readLoop_eq {dst : Bytes} {tot off n fuel : Nat} (htot : tot ≤ n) (hfuel : n - tot ≤ fuel)
    (hmax : off + (n - tot) ≤ MAXFILE * BSIZE)
    (hptr : ∀ i, off ≤ i → i < off + (n - tot) → fs.ptr ip.toDinode (locOf (i / BSIZE)) ≠ 0) :
    fs.readLoop ip dst tot off n fuel =
      .ok (fs, ip, copyTo dst tot (fun i => fs.byteAt ip.toDinode (off + i)) (n - tot)) := by
  -- by induction on the turns that are left
  induction fuel generalizing dst tot off with
  | zero =>
    have hnone : copyTo dst tot (fun i => fs.byteAt ip.toDinode (off + i)) (n - tot) = dst := by
      funext i
      exact copyTo_outside _ _ (by omega)
    rw [readLoop, hnone]
  | succ fuel ih =>
    unfold readLoop
    by_cases hlt : tot < n
    · have hne := hptr off le_rfl (by omega)
      have hbn := div_lt_maxfile (show off < MAXFILE * BSIZE by omega)
      rw [if_pos hlt, bmap_of_ne hbn hne, ok_bind]
      simp only
      have hpos : 0 < BSIZE - off % BSIZE := by simp only [BSIZE]; omega
      generalize hm : min (n - tot) (BSIZE - off % BSIZE) = m
      rw [ih (by omega) (by omega) (by omega) fun i hi hi' => hptr i (by omega) (by omega),
        copyTo_copyTo, show m + (n - (tot + m)) = n - tot by omega]
      refine congrArg (fun c => Except.ok (fs, ip, c)) (copyTo_congr fun i hi => ?_)
      by_cases him : i < m
      · have hin : i < BSIZE - off % BSIZE := by omega
        obtain ⟨hdiv, hmod⟩ := div_add_of_lt hin
        rw [if_pos him, byteAt, hdiv, hmod, if_neg hne]
      · rw [if_neg him, Nat.add_assoc, Nat.add_sub_cancel' (by omega)]
    · have hnone : copyTo dst tot (fun i => fs.byteAt ip.toDinode (off + i)) (n - tot) = dst := by
        funext i
        exact copyTo_outside _ _ (by omega)
      rw [if_neg hlt, hnone]

/-- **`readi` reads the content** of an inode whose blocks are allocated. -/
theorem readi_eq (hdev : ip.type ≠ T_DEV) (hd : Dense fs ip.toDinode) (dst : Bytes) {off n : Nat}
    (hoff : off < 2 ^ 32) (hn : n < 2 ^ 32) :
    fs.readi ip dst off n = .ok (fs, ip, readResult (fs.content ip.toDinode) dst off n) := by
  unfold readi readResult
  rw [if_neg hdev, length_content]
  by_cases hbad : off > ip.size ∨ uint (off + n) < off
  · rw [if_pos hbad, if_pos hbad]
  rw [if_neg hbad, if_neg hbad]
  have hsum : uint (off + n) = off + n := by
    unfold uint at hbad ⊢
    omega
  have hlen : (if uint (off + n) > ip.size then ip.size - off else n) = min n (ip.size - off) := by
    rw [hsum]
    split <;> omega
  have hsize := hd.size
  simp only [hlen]
  generalize hm : min n (ip.size - off) = m
  rw [readLoop_eq (Nat.zero_le m) (by omega) (by omega) fun i _ hi => hd.ptr_div (by omega)]
  have hcopy : copyTo dst 0 (fun i => fs.byteAt ip.toDinode (off + i)) (m - 0) =
      copyTo dst 0 (fun i => (fs.content ip.toDinode).getD (off + i) 0) m :=
    copyTo_congr fun i hi => (getD_content fs ip.toDinode (by omega)).symm
  rw [hcopy]
  rfl

/-! ## Working on one inode -/

/-- Nothing of the inodes other than `ino` has changed. -/
structure Spares (ino : Nat) (fs : Disk) (I : Table) (fs' : Disk) (I' : Table) : Prop where
  sb : fs'.sb = fs.sb
  dinode : ∀ m < fs.sb.ninodes, m ≠ ino → fs'.dinode m = fs.dinode m
  sound : Sound fs'
  owned : Owned fs' I'
  covered : Covered fs I → Covered fs' I'
  other : ∀ m, m ≠ ino → I' m = I m
  frame : ∀ x : Place, x.1 ≠ ino → fs'.held I' x = fs.held I x
  block : ∀ x : Place, x.1 ≠ ino → x.2.Data → fs.held I x ≠ 0 →
    fs'.block (fs.held I x) = fs.block (fs.held I x)

variable {fs2 : Disk} {I2 : Table}

theorem Spares.trans (h1 : Spares ino fs I fs1 I1)
    (h2 : Spares ino fs1 I1 fs2 I2) : Spares ino fs I fs2 I2 where
  sb := h2.sb.trans h1.sb
  dinode m hm hm' := (h2.dinode m (h1.sb ▸ hm) hm').trans (h1.dinode m hm hm')
  sound := h2.sound
  owned := h2.owned
  covered := h2.covered ∘ h1.covered
  other m hm := (h2.other m hm).trans (h1.other m hm)
  frame x hx := (h2.frame x hx).trans (h1.frame x hx)
  block x hm hd hx := by
    have hx1 := h1.frame x hm
    have hb2 := h2.block x hm hd (by rwa [hx1])
    rw [hx1] at hb2
    rw [hb2, h1.block x hm hd hx]

/-- The inode `ino` keeps its blocks as well. -/
structure Works (ino : Nat) (fs : Disk) (I : Table) (fs' : Disk) (I' : Table) : Prop extends
    Spares ino fs I fs' I' where
  kept : ∀ x, fs.held I x ≠ 0 → fs'.held I' x = fs.held I x
  gains : Gains 0 fs.used (fs.held I) fs'.used (fs'.held I')

theorem Extends.works (h : Extends ino fs I fs' I') : Works ino fs I fs' I' where
  sb := h.same.sb
  dinode m hm _ := h.same.dinode m hm
  sound := h.sound
  owned := h.owned
  covered := h.covered
  other := h.other
  frame := h.frame
  block x _ hd hx := h.block x hd hx
  kept := h.kept
  gains := h.gains

theorem Works.refl (ino : Nat) (hs : Sound fs) (ho : Owned fs I) : Works ino fs I fs I :=
  (Extends.refl ino hs ho).works

theorem Works.trans (h1 : Works ino fs I fs1 I1)
    (h2 : Works ino fs1 I1 fs2 I2) : Works ino fs I fs2 I2 where
  toSpares := h1.toSpares.trans h2.toSpares
  kept x hx := by
    have hx1 := h1.kept x hx
    rw [h2.kept x (by rwa [hx1]), hx1]
  gains := h1.gains.trans h2.gains h1.kept h2.kept

variable {m : Nat} {dm : Dinode}

theorem Spares.byteAt_eq (h : Spares ino fs I fs' I') (hm : m ≠ ino)
    (hI : I m = some dm) (i : Nat) : fs'.byteAt dm i = fs.byteAt dm i := by
  have hI' : I' m = some dm := (h.other m hm).trans hI
  have hptr : ∀ l, fs'.ptr dm l = fs.ptr dm l := fun l => by
    have hf := h.frame (m, l) hm
    rwa [held_of_some hI, held_of_some hI'] at hf
  unfold byteAt
  rw [hptr]
  by_cases hzero : fs.ptr dm (locOf (i / BSIZE)) = 0
  · rw [if_pos hzero, if_pos hzero]
  · have hb := h.block (m, locOf (i / BSIZE)) hm (locOf_data _) (by rwa [held_of_some hI])
    rw [held_of_some hI] at hb
    rw [if_neg hzero, if_neg hzero, hb]

theorem Spares.content_eq (h : Spares ino fs I fs' I') (hm : m ≠ ino)
    (hI : I m = some dm) : fs'.content dm = fs.content dm :=
  map_congr_left fun i _ => h.byteAt_eq hm hI i

theorem Spares.dense (h : Spares ino fs I fs' I') (hm : m ≠ ino)
    (hI : I m = some dm) (hd : Dense fs dm) : Dense fs' dm where
  size := hd.size
  ptr bn hbn := by
    have hf := h.frame (m, locOf bn) hm
    rw [held_of_some hI, held_of_some ((h.other m hm).trans hI)] at hf
    rw [hf]
    exact hd.ptr bn hbn

/-! ## A write to a data block -/

theorem held_logWrite (ho : Owned fs I) (ino : Nat) {l : Loc} (hd : l.Data) (data : Bytes) :
    (fs.logWrite (fs.held I (ino, l)) data).held I = fs.held I :=
  held_eq_of_blocks fun x hx hxd => block_logWrite_of_ne fs data fun heq => by
    rw [ho.inj x _ hx heq] at hxd
    exact hxd hd

theorem used_logWrite (hs : Sound fs) {b : Nat} (hb : InData fs.sb b) (data : Bytes) :
    (fs.logWrite b data).used = fs.used := by
  ext c
  simp only [used, Set.mem_ofPred_eq, sb_logWrite]
  refine and_congr_right fun hc => ?_
  rw [marked_logWrite hs.layout hb hc]

theorem free_logWrite (hs : Sound fs) {b : Nat} (hb : InData fs.sb b) (data : Bytes) :
    (fs.logWrite b data).free = fs.free := by
  refine congrArg Finset.card (Finset.filter_congr fun c hc => ?_)
  rw [marked_logWrite hs.layout hb (Finset.mem_range.mp hc)]

/-- Only the inode whose block is written is affected. -/
theorem works_logWrite (hs : Sound fs) (ho : Owned fs I) {l : Loc} (hd : l.Data)
    (hne : fs.held I (ino, l) ≠ 0) (data : Bytes) :
    Works ino fs I (fs.logWrite (fs.held I (ino, l)) data) I := by
  have hdata : InData fs.sb (fs.held I (ino, l)) := ho.mem_area _ hne
  have hheld := held_logWrite ho ino hd data
  have hmeta := sameMeta_logWrite hs.layout hdata data
  refine ⟨⟨rfl, fun m hm _ => hmeta.dinode m hm,
    ⟨hs.layout, hmeta.readsb.trans hs.readsb, ?_⟩, ?_, ?_, fun _ _ => rfl,
    fun _ _ => by rw [hheld], fun x hx _ hxn => ?_⟩, fun _ _ => by rw [hheld], ?_⟩
  · intro b hb hlt
    rw [marked_logWrite hs.layout hdata hlt]
    exact hs.reserved b hb hlt
  · rw [Owned, hheld, used_logWrite hs hdata]
    exact ho
  · intro hc
    rw [Covered, hheld, used_logWrite hs hdata]
    exact hc
  · exact block_logWrite_of_ne fs data fun heq => hx (congrArg Prod.fst (ho.inj x _ hxn heq))
  · rw [hheld, used_logWrite hs hdata]
    exact .refl ..

end Disk
end Fs
end Xv6

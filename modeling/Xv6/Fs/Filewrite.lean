import Xv6.Fs.Write
import Xv6.Kernel

/-!
# Xv6.Fs.Filewrite

`filewrite` (`file.c`) on an inode: the bytes are written in chunks, with a
transaction for each.  Together the chunks are one write; beyond the largest
file the chunks that fit are written.

The inode is the one that `ilock` returns; no other call is between the chunks.
-/

namespace Xv6

open Lib Function

namespace Fs

/-! ## The function -/

/-- `struct file` with its offset -/
structure OpenFile extends File where
  off : Nat

inductive FilePanic where
  | fs (e : FsPanic)
  /-- short filewrite -/
  | short
  | filewrite
  deriving DecidableEq, Repr

/-- `max` of `filewrite` -/
abbrev CHUNK : Nat := (LOGSIZE - 1 - 1 - 2) / 2 * 512

namespace Disk

/-- The loop of `filewrite`, with `i` of the `n` bytes at `addr` written.  Every turn
but the last writes at least one byte. -/
def filewriteLoop (fs : Disk) (ip : Inode) (addr : Bytes) (off i n : Nat) :
    Nat → Except FilePanic (Disk × Inode × Nat × Nat)
  | 0 => .ok (fs, ip, off, i)
  | fuel + 1 =>
    if i < n then
      let n1 := min (n - i) CHUNK
      match fs.writei ip (fun j => addr (i + j)) off n1 with
      | .error e => .error (.fs e)
      | .ok (fs, ip, r) =>
        let off := if r > 0 then uint (off + r.toNat) else off
        if r < 0 then .ok (fs, ip, off, i)
        else if r ≠ n1 then .error .short
        else filewriteLoop fs ip addr off (i + r.toNat) n fuel
    else .ok (fs, ip, off, i)

/-- `filewrite(f, addr, n)` where `ip` is the inode of `f`, if it has one, and
`pipewrite` the result of the write to its pipe. -/
def filewrite (fs : Disk) (f : OpenFile) (ip : Inode) (pipewrite : Int) (addr : Bytes) (n : Int) :
    Except FilePanic (Disk × OpenFile × Inode × Int) :=
  if f.writable = false then .ok (fs, f, ip, -1)
  else
    match f.kind with
    | .pipe _ => .ok (fs, f, ip, pipewrite)
    | .inode _ => do
      let (fs, ip, off, i) ← fs.filewriteLoop ip addr f.off 0 n.toNat n.toNat
      return (fs, { f with off := off }, ip, if (i : Int) = n then n else -1)
    | .none => .error .filewrite

/-! ## The chunks that fit -/

/-- How many of `n` bytes at `off` lie in chunks that fit into the largest file. -/
def fitting (off n : Nat) : Nat :=
  if off + n ≤ MAXFILE * BSIZE then n else (MAXFILE * BSIZE - off) / CHUNK * CHUNK

variable {fs fs' : Disk} {I : Table} {ip ip' : Inode} {off i n k : Nat}

theorem fitting_eq (off n : Nat) :
    fitting off n = if off + n ≤ 8459776 then n else (8459776 - off) / 6656 * 6656 := rfl

theorem fitting_le (off n : Nat) : fitting off n ≤ n := by
  rw [fitting_eq]
  split <;> omega

theorem fitting_of_long (h : MAXFILE * BSIZE < off + min n CHUNK) : fitting off n = 0 := by
  change 8459776 < off + min n 6656 at h
  rw [fitting_eq]
  split <;> omega

theorem fitting_chunk (h : off + min n CHUNK ≤ MAXFILE * BSIZE) :
    fitting off n = min n CHUNK + fitting (off + min n CHUNK) (n - min n CHUNK) := by
  change off + min n 6656 ≤ 8459776 at h
  change fitting off n = min n 6656 + fitting (off + min n 6656) (n - min n 6656)
  rw [fitting_eq, fitting_eq]
  split <;> split <;> omega

/-! ## Two writes in a row -/

theorem splice_append {c : List UInt8} (src : Bytes) (h : off ≤ c.length) :
    splice (splice c off src k) (off + k) (fun j => src (k + j)) n = splice c off src (k + n) := by
  have hle : off + k ≤ (splice c off src k).length := by
    rw [length_splice src k h]
    omega
  refine List.ext_getElem ?_ fun j hj hj' => ?_
  · rw [length_splice _ n hle, length_splice _ k h, length_splice _ _ h]
    omega
  · rw [← List.getD_eq_getElem _ 0 hj, ← List.getD_eq_getElem _ 0 hj', getD_splice _ n hle,
      getD_splice _ k h, getD_splice _ _ h]
    by_cases hlate : off + k ≤ j ∧ j < off + k + n
    · rw [if_pos hlate, if_pos (by omega), show k + (j - (off + k)) = j - off by omega]
    rw [if_neg hlate]
    by_cases hin : off ≤ j ∧ j < off + k
    · rw [if_pos hin, if_pos (by omega)]
    · rw [if_neg hin, if_neg (by omega)]

theorem lack_mono (fs : Disk) (I : Table) (ino : Nat) {S S' : Finset Loc} (h : S ⊆ S') :
    fs.lack I ino S ≤ fs.lack I ino S' :=
  Finset.card_le_card (Finset.filter_subset_filter _ h)

theorem touched_left (off k n : Nat) : touched off k ⊆ touched off (k + n) := fun l hl => by
  obtain ⟨i, hi, hl⟩ := mem_touched.mp hl
  exact mem_touched.mpr ⟨i, by omega, hl⟩

theorem touched_right (off k n : Nat) : touched (off + k) n ⊆ touched off (k + n) := fun l hl => by
  obtain ⟨i, hi, hl⟩ := mem_touched.mp hl
  exact mem_touched.mpr ⟨k + i, by omega, by rwa [← Nat.add_assoc]⟩

/-! ## The loop -/

/-- A regular file that can be written at `off`, in a table of inodes whose blocks
are their own. -/
structure Ready (fs : Disk) (I : Table) (ip : Inode) (off : Nat) : Prop where
  sound : Sound fs
  owned : Owned fs I
  table : I ip.inum = some ip.toDinode
  inum : ip.inum < fs.sb.ninodes
  type : ip.type = T_FILE
  size_le : ip.size ≤ MAXFILE * BSIZE
  off_le : off ≤ ip.size

theorem Ready.notDev (h : Ready fs I ip off) : ip.type ≠ T_DEV := by
  rw [h.type]
  decide

/-- A chunk that fits is written, and the file is ready for the next one. -/
theorem Ready.chunk (h : Ready fs I ip off) (hmax : off + k ≤ MAXFILE * BSIZE) (src : Bytes)
    (hroom : fs.lack I ip.inum (touched off (k + n)) ≤ fs.free) :
    ∃ fs' ip', fs.writei ip src off k = .ok (fs', ip', k) ∧ ip'.inum = ip.inum ∧
      Ready fs' (update I ip.inum (some ip'.toDinode)) ip' (off + k) ∧
      fs'.lack (update I ip.inum (some ip'.toDinode)) ip.inum (touched (off + k) n) ≤ fs'.free ∧
      fs'.content ip'.toDinode = splice (fs.content ip.toDinode) off src k ∧
      ∀ m d, m ≠ ip.inum → I m = some d → fs'.content d = fs.content d := by
  have hleft := lack_mono fs I ip.inum (touched_left off k n)
  obtain ⟨fs', ip', r, hok⟩ := writei_ok h.sound h.owned h.table h.notDev h.off_le hmax
    (hleft.trans hroom) src
  obtain ⟨hw, rfl⟩ := writei_wrote h.sound h.owned h.table h.inum h.notDev h.off_le hmax hok
  have hinum : ip'.inum = ip.inum := by rw [hw.inode]
  refine ⟨fs', ip', hok, hinum, ?_, ?_, hw.content_splice h.off_le h.size_le,
    fun m d hm hd => hw.content_eq hm hd⟩
  · constructor
    case sound => exact hw.sound
    case owned => exact hw.owned
    case table => rw [hinum, update_self]
    case inum => rw [hinum, hw.sb]; exact h.inum
    case type => rw [hw.inode]; exact h.type
    case size_le => rw [hw.size]; exact max_le h.size_le hmax
    case off_le => rw [hw.size]; omega
  · have hbalance := hw.balance _ (touched_left off k n)
    have hright := lack_mono fs' (update I ip.inum (some ip'.toDinode)) ip.inum
      (touched_right off k n)
    omega

/-- A chunk that does not fit is not written at all. -/
theorem Ready.long (h : Ready fs I ip off) (hn : n ≤ CHUNK) (hmax : MAXFILE * BSIZE < off + n)
    (src : Bytes) : fs.writei ip src off n = .ok (fs, ip, -1) := by
  have hsize := h.size_le
  have hoff := h.off_le
  have hsum : uint (off + n) = off + n := Nat.mod_eq_of_lt (by
    change ip.size ≤ 8459776 at hsize
    change n ≤ 6656 at hn
    omega)
  rw [writei, if_neg h.notDev, hsum, if_neg (by omega), if_pos hmax]

/-- The bytes from `i` on that lie in chunks that fit have been written at `off`. -/
def WritesFitting (fs : Disk) (I : Table) (ip : Inode) (addr : Bytes) (off i n : Nat)
    (res : Except FilePanic (Disk × Inode × Nat × Nat)) : Prop :=
  let m := fitting off (n - i)
  ∃ fs' ip', res = .ok (fs', ip', off + m, i + m) ∧
    fs'.content ip'.toDinode = splice (fs.content ip.toDinode) off (fun j => addr (i + j)) m ∧
    ∀ ino d, ino ≠ ip.inum → I ino = some d → fs'.content d = fs.content d

theorem writesFitting_none (h : fitting off (n - i) = 0) (addr : Bytes) :
    WritesFitting fs I ip addr off i n (.ok (fs, ip, off, i)) :=
  ⟨fs, ip, by rw [h]; rfl, by simp [splice, h], fun _ _ _ _ => rfl⟩

/-- The loop writes the chunks that fit and stops. -/
theorem filewriteLoop_fitting (h : Ready fs I ip off) (addr : Bytes) {fuel : Nat}
    (hroom : fs.lack I ip.inum (touched off (fitting off (n - i))) ≤ fs.free)
    (hfuel : n - i ≤ fuel) :
    WritesFitting fs I ip addr off i n (fs.filewriteLoop ip addr off i n fuel) := by
  have hle := fitting_le off (n - i)
  induction fuel generalizing fs I ip off i with
  | zero => exact writesFitting_none (by omega) addr
  | succ fuel ih =>
    rw [filewriteLoop]
    by_cases hlt : i < n
    · rw [if_pos hlt]
      by_cases hmax : off + min (n - i) CHUNK ≤ MAXFILE * BSIZE
      · have hfit := fitting_chunk hmax
        rw [hfit] at hroom
        obtain ⟨fs1, ip1, hok, hinum, hready, hroom1, hcontent, hother⟩ :=
          h.chunk hmax (fun j => addr (i + j)) hroom
        have hpos : 0 < min (n - i) CHUNK := lt_min (by omega) (by decide)
        have hsum : uint (off + min (n - i) CHUNK) = off + min (n - i) CHUNK :=
          Nat.mod_eq_of_lt (hmax.trans_lt (by decide))
        simp only [hok]
        generalize min (n - i) CHUNK = k at *
        rw [Nat.sub_sub] at hfit hroom1
        rw [if_neg (by omega), if_neg (by simp), if_pos (by omega), Int.toNat_natCast, hsum]
        obtain ⟨fs', ip', hres, hrest, hother'⟩ := ih hready (by rwa [hinum]) (by omega)
          (fitting_le _ _)
        refine ⟨fs', ip', ?_, ?_, fun m d hm hd => ?_⟩
        · rw [hres, hfit, Nat.add_assoc, Nat.add_assoc]
        · rw [hrest, hcontent, hfit, ← splice_append]
          · simp only [Nat.add_assoc]
          · rw [length_content]
            exact h.off_le
        · rw [hother' m d (by rwa [hinum]) (by rwa [update_of_ne hm]), hother m d hm hd]
      · simp only [h.long (min_le_right _ _) (Nat.lt_of_not_le hmax)]
        exact writesFitting_none (fitting_of_long (Nat.lt_of_not_le hmax)) addr
    · rw [if_neg hlt]
      exact writesFitting_none (by omega) addr

/-- **A chunked write is one write**, with enough free blocks.  If the bytes do not fit
into the largest file, it fails with exactly the chunks written that do. -/
theorem filewrite_splices {f : OpenFile} {id : InodeId} (hw : f.writable = true)
    (hkind : f.kind = .inode id) (h : Ready fs I ip f.off) (n : Nat) (pipewrite : Int) (addr : Bytes)
    (hroom : fs.lack I ip.inum (touched f.off (fitting f.off n)) ≤ fs.free) :
    ∃ fs' ip' m r, fs.filewrite f ip pipewrite addr n =
        .ok (fs', { f with off := f.off + m }, ip', r) ∧
      fs'.content ip'.toDinode = splice (fs.content ip.toDinode) f.off addr m ∧
      (∀ ino d, ino ≠ ip.inum → I ino = some d → fs'.content d = fs.content d) ∧
      (f.off + n ≤ MAXFILE * BSIZE → m = n ∧ r = n) ∧
      (MAXFILE * BSIZE < f.off + n →
        m = (MAXFILE * BSIZE - f.off) / CHUNK * CHUNK ∧ r = -1) := by
  obtain ⟨fs', ip', hres, hcontent, hother⟩ :=
    filewriteLoop_fitting (i := 0) h addr hroom (Nat.sub_le n 0)
  simp only [Nat.zero_add, Nat.sub_zero] at hres hcontent
  refine ⟨fs', ip', fitting f.off n, if (fitting f.off n : Int) = n then n else -1, ?_, hcontent,
    hother, fun hmax => ?_, fun hmax => ?_⟩
  · rw [filewrite, if_neg (by simp [hw]), hkind]
    simp only [Int.toNat_natCast, hres, ok_bind, pure_eq_ok]
  · rw [fitting, if_pos hmax]
    exact ⟨rfl, if_pos rfl⟩
  · rw [fitting, if_neg (Nat.not_le.mpr hmax)]
    refine ⟨rfl, if_neg ?_⟩
    have hle := Nat.div_mul_le_self (MAXFILE * BSIZE - f.off) CHUNK
    have hoff := h.off_le.trans h.size_le
    omega

theorem ready_smallFile (hs : Sound fs) (ho : Owned fs (oneTable smallFile))
    (hino : 1 < fs.sb.ninodes) (hoff : off ≤ 10) : Ready fs (oneTable smallFile) smallFile off :=
  ⟨hs, ho, rfl, hino, rfl, by decide, hoff⟩

/-- 600 bytes at offset 8 of a file of 10 bytes. -/
theorem filewrite_smallDisk : ∃ fs' f' ip', smallDisk.filewrite
    { ref := 1, kind := .inode 0, writable := true, off := 8 } smallFile 0 (fun _ => 7) 600 =
      .ok (fs', f', ip', 600) ∧ f'.off = 608 := by
  obtain ⟨fs', ip', m, r, hok, -, -, hfits, -⟩ := filewrite_splices
    (f := { ref := 1, kind := .inode 0, writable := true, off := 8 }) rfl rfl
    (ready_smallFile smallDisk_sound smallDisk_owned (by decide) (by decide)) 600 0 (fun _ => 7)
    (smallDisk_room (k := 2) (by decide) (by decide))
  obtain ⟨rfl, rfl⟩ := hfits (by decide)
  exact ⟨fs', _, ip', hok, rfl⟩

/-- The disk without a free block. -/
def fullDisk : Disk := oneFile smallFile fun _ => 0xff

/-- On a full disk the same write ends in the panic of `balloc`. -/
theorem not_filewrite_fullDisk : Ready fullDisk (oneTable smallFile) smallFile 8 ∧
    8 + 600 ≤ MAXFILE * BSIZE ∧
    (fullDisk.filewrite { ref := 1, kind := .inode 0, writable := true, off := 8 } smallFile 0
      (fun _ => 7) 600).map (fun _ => ()) = .error (.fs .balloc) := by
  have hsound : Sound fullDisk :=
    ⟨⟨by decide, by decide, by decide, by decide, by decide⟩, by decide +kernel, by decide +kernel⟩
  have howned : Owned fullDisk (oneTable smallFile) :=
    owned_oneTable rfl (by decide) ⟨by decide, by decide +kernel⟩
  exact ⟨ready_smallFile hsound howned (by decide) (by decide), by decide, by decide +kernel⟩

end Disk
end Fs
end Xv6

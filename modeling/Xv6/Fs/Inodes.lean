import Xv6.Fs.Trunc
import Xv6.Lib.Run

/-!
# Xv6.Fs.Inodes

Any sequence of allocations, reads, writes, truncations and frees on any set of
inodes.  Every block number of an allocated inode stays the only one for its
block, names a block of the data area that is in use, and every block of the
data area in use has a number in some inode, as long as no inode leaves the cache
with block numbers that are not on the disk.
-/

namespace Xv6

open Lib Function

namespace Fs
namespace Disk

variable {fs fs' : Disk} {I : Table} {ino : Nat} {ip ip' : Inode}

/-! ## Reads that allocate -/

/-- `readi` may allocate the blocks that are missing below the size. -/
theorem readLoop_extends (hs : Sound fs) (ho : Owned fs I) (hI : I ino = some ip.toDinode)
    {dst dst' : Bytes} {tot off n fuel : Nat}
    (h : fs.readLoop ip dst tot off n fuel = .ok (fs', ip', dst')) :
    Extends ino fs I fs' (update I ino (some ip'.toDinode)) ∧
      ip' = { ip with addrs := ip'.addrs } := by
  induction fuel generalizing fs I ip dst tot off with
  | zero =>
    cases h
    rw [update_table hI]
    exact ⟨.refl ino hs ho, rfl⟩
  | succ fuel ih =>
    unfold readLoop at h
    by_cases hlt : tot < n
    · rw [if_pos hlt] at h
      obtain ⟨⟨fs1, ip1, a⟩, hbmap, h⟩ := bind_eq_ok.mp h
      obtain ⟨hmaps, hip1⟩ := bmap_maps hs ho hI hbmap
      obtain ⟨hrest, hip'⟩ := ih hmaps.sound hmaps.owned (table_self I ino ip1) h
      rw [update_idem] at hrest
      exact ⟨hmaps.toExtends.trans hrest, by rw [hip', hip1]⟩
    · rw [if_neg hlt] at h
      cases h
      rw [update_table hI]
      exact ⟨.refl ino hs ho, rfl⟩

theorem readi_extends (hs : Sound fs) (ho : Owned fs I) (hI : I ino = some ip.toDinode)
    {dst dst' : Bytes} {off n : Nat} {r : Int}
    (h : fs.readi ip dst off n = .ok (fs', ip', r, dst')) :
    Extends ino fs I fs' (update I ino (some ip'.toDinode)) ∧
      ip' = { ip with addrs := ip'.addrs } := by
  have hidle : Extends ino fs I fs (update I ino (some ip.toDinode)) := by
    rw [update_table hI]
    exact .refl ino hs ho
  unfold readi at h
  split at h
  · split at h
    · cases h
      exact ⟨hidle, rfl⟩
    · split at h <;> (simp only [Except.ok.injEq, Prod.mk.injEq] at h; obtain ⟨rfl, rfl, -⟩ := h
                      exact ⟨hidle, rfl⟩)
  · split at h
    · cases h
      exact ⟨hidle, rfl⟩
    · obtain ⟨⟨fs1, ip1, dst1⟩, hloop, h⟩ := bind_eq_ok.mp h
      cases h
      exact readLoop_extends hs ho hI hloop

/-! ## Allocating an inode -/

/-- A new inode of the given type, without content. -/
def newDinode (type : Int16) : Dinode where
  type := type
  major := 0
  minor := 0
  nlink := 0
  size := 0
  addrs := fun _ => 0

theorem ialloc_eq {type : Int16} (h : fs.ialloc type = .ok (fs', ino)) :
    fs' = fs.setDinode ino (newDinode type) ∧ 1 ≤ ino ∧ ino < fs.sb.ninodes ∧
      (fs.dinode ino).type = 0 := by
  unfold ialloc at h
  split at h
  · contradiction
  next _ hfind =>
  cases h
  have hmem := List.mem_range'_1.mp (List.mem_of_find?_eq_some hfind)
  have htype := List.find?_some hfind
  exact ⟨rfl, hmem.1, by omega, by simpa using htype⟩

/-- The inodes on the disk that are allocated. -/
def table (fs : Disk) : Table := fun m =>
  if m < fs.sb.ninodes ∧ (fs.dinode m).type ≠ 0 then some (fs.dinode m) else none

end Disk

/-! ## The machine -/

/-- The disk and the in-memory copies of the allocated inodes. -/
structure Inodes where
  disk : Disk
  inode : Nat → Option Inode

namespace Inodes

/-- The in-memory copy of inode `inum` after `ilock`. -/
def copyOf (inum : Nat) (d : Dinode) : Inode :=
  { d with dev := ROOTDEV, inum := inum, ref := 1, locked := true, valid := true }

/-- The inodes of a disk, as they are read. -/
def ofDisk (fs : Disk) : Inodes where
  disk := fs
  inode m := (fs.table m).map (copyOf m)

/-- The block maps of the inodes. -/
def table (s : Inodes) : Table := fun m => (s.inode m).map Inode.toDinode

/-- The calls on an allocated inode.  Offsets and lengths are of type `uint`. -/
inductive Call where
  | bmap (bn : Nat)
  | readi (dst : Bytes) (off n : UInt32)
  | writei (src : Bytes) (off n : UInt32)
  | itrunc
  /-- a change of `major`, `minor` and `nlink`, with `iupdate` -/
  | update (major minor nlink : Int16)
  /-- `iput` of the last reference, and the next `iget` and `ilock` -/
  | iput

/-- A call: the disk after it and the in-memory copy, if the inode is not freed. -/
def call (fs : Disk) (ip : Inode) : Call → Except FsPanic (Disk × Option Inode)
  | .bmap bn => do
    let (fs, ip, _) ← fs.bmap ip bn
    return (fs, some ip)
  | .readi dst off n => do
    let (fs, ip, _) ← fs.readi ip dst off.toNat n.toNat
    return (fs, some ip)
  | .writei src off n => do
    let (fs, ip, _) ← fs.writei ip src off.toNat n.toNat
    return (fs, some ip)
  | .itrunc => do
    let (fs, ip) ← fs.itrunc ip
    return (fs, some ip)
  | .update major minor nlink =>
    let ip := { ip with major := major, minor := minor, nlink := nlink }
    .ok (fs.iupdate ip, some ip)
  | .iput =>
    if ip.nlink = 0 then do
      let (fs, ip) ← fs.itrunc ip
      return (fs.iupdate { ip with type := 0 }, none)
    else .ok (fs, some (copyOf ip.inum (fs.dinode ip.inum)))

/-- A call on an inode, or the allocation of one. -/
inductive Act where
  | call (ino : Nat) (c : Call)
  | ialloc (type : { t : Int16 // t ≠ 0 })

/-- The state after an act, or its panic.  There are no calls on free inodes. -/
def next (s : Inodes) : Act → Except FsPanic Inodes
  | .call ino c =>
    match s.inode ino with
    | none => .ok s
    | some ip => do
      let (fs, ip) ← call s.disk ip c
      return { disk := fs, inode := update s.inode ino ip }
  | .ialloc type => do
    let (fs, ino) ← s.disk.ialloc type
    return { disk := fs, inode := update s.inode ino (copyOf ino (Disk.newDinode type)) }

/-- The states reached from the inodes of a disk on which the blocks are owned, by acts
that meet a condition. -/
abbrev ReachableBy (guard : Inodes → Act → Prop) : Inodes → Prop :=
  Reach (fun s => ∃ fs : Disk, fs.Sound ∧ fs.Owned fs.table ∧ fs.Covered fs.table ∧ s = ofDisk fs)
    (fun s a => (s.next a).toOption) guard

/-- An inode with links that leaves the cache is on the disk as it is in memory. -/
def Updated (s : Inodes) : Act → Prop
  | .call ino .iput =>
    ∀ ip ∈ s.inode ino, ip.nlink ≠ 0 → s.disk.dinode ino = ip.toDinode
  | _ => True

instance (s : Inodes) : (a : Act) → Decidable (s.Updated a)
  | .call ino .iput => inferInstanceAs (Decidable (∀ ip ∈ s.inode ino, ip.nlink ≠ 0 →
      s.disk.dinode ino = ip.toDinode))
  | .call _ (.bmap _) | .call _ (.readi ..) | .call _ (.writei ..) | .call _ .itrunc
  | .call _ (.update ..) | .ialloc _ => .isTrue trivial

/-! ## The invariant -/

/-- The copy of inode `m`, which is allocated when there is one. -/
def Copy (fs : Disk) (m : Nat) : Option Inode → Prop
  | none => (fs.dinode m).type = 0
  | some ip => ip.inum = m ∧ ip.type ≠ 0 ∧ ip.size < 2 ^ 32 ∧ (fs.dinode m).type ≠ 0

/-- The blocks are owned, and the copies are those of the allocated inodes. -/
structure Good (s : Inodes) : Prop where
  sound : s.disk.Sound
  owned : s.disk.Owned s.table
  covered : s.disk.Covered s.table
  lt : ∀ m ip, s.inode m = some ip → m < s.disk.sb.ninodes
  copy : ∀ m < s.disk.sb.ninodes, Copy s.disk m (s.inode m)

variable {s s' : Inodes} {fs' : Disk} {m : Nat} {ip : Inode} {o : Option Inode}

theorem table_of_some (h : s.inode m = some ip) : s.table m = some ip.toDinode := by
  rw [table, h, Option.map_some]

theorem Good.copy_some (h : Good s) (hip : s.inode m = some ip) :
    m < s.disk.sb.ninodes ∧ ip.inum = m ∧ ip.type ≠ 0 ∧ ip.size < 2 ^ 32 ∧
      (s.disk.dinode m).type ≠ 0 := by
  have hlt := h.lt m ip hip
  have hcopy := h.copy m hlt
  rw [hip] at hcopy
  exact ⟨hlt, hcopy⟩

/-- What a call does: the other inodes are spared. -/
structure Calls (s : Inodes) (m : Nat) (fs' : Disk) (o : Option Inode) : Prop where
  spares : s.disk.Spares m s.table fs' (update s.table m (o.map Inode.toDinode))
  copy : Copy fs' m o

theorem Calls.of_extends (h : Good s) (hip : s.inode m = some ip) {ip' : Inode}
    (he : s.disk.Extends m s.table fs' (update s.table m (some ip'.toDinode)))
    (hip' : ip' = { ip with addrs := ip'.addrs }) : Calls s m fs' (some ip') := by
  obtain ⟨hlt, hinum, htype, hsize, hdisk⟩ := h.copy_some hip
  refine ⟨he.works.toSpares, ?_⟩
  rw [hip', Copy, he.same.dinode m hlt]
  exact ⟨hinum, htype, hsize, hdisk⟩

theorem calls_itrunc (h : Good s) (hip : s.inode m = some ip) :
    ∃ fs', s.disk.itrunc ip = .ok (fs', ip.emptied) ∧ Calls s m fs' (some ip.emptied) := by
  obtain ⟨hlt, hinum, htype, hsize, hdisk⟩ := h.copy_some hip
  subst hinum
  obtain ⟨fs', hok, hspares, hdinode, -⟩ :=
    Disk.itrunc_spares h.sound h.owned (table_of_some hip) hlt
  refine ⟨fs', hok, hspares, rfl, htype, show 0 < 2 ^ 32 by decide, ?_⟩
  rw [hdinode]
  exact htype

theorem calls_update (h : Good s) (hip : s.inode m = some ip) (major minor nlink : Int16) :
    Calls s m (s.disk.iupdate { ip with major := major, minor := minor, nlink := nlink })
      (some { ip with major := major, minor := minor, nlink := nlink }) := by
  obtain ⟨hlt, hinum, htype, hsize, hdisk⟩ := h.copy_some hip
  subst hinum
  have haddrs : ({ ip.toDinode with major := major, minor := minor, nlink := nlink } : Dinode).addrs =
      ip.addrs := rfl
  have hworks := Disk.works_setDinode h.sound hlt h.owned (table_of_some hip) haddrs
  have hfits := Disk.Owned.fits hworks.sound hworks.owned (update_self ..)
    (show ({ ip.toDinode with major := major, minor := minor, nlink := nlink } : Dinode).size < 2 ^ 32
      from hsize)
  refine ⟨hworks.toSpares, rfl, htype, hsize, ?_⟩
  rw [Disk.iupdate, Disk.dinode_setDinode_same _ _ hfits]
  exact htype

theorem calls_writei (h : Good s) (hip : s.inode m = some ip) {src : Bytes} {off n : UInt32}
    {ip' : Inode} {r : Int} (hc : s.disk.writei ip src off.toNat n.toNat = .ok (fs', ip', r)) :
    Calls s m fs' (some ip') := by
  obtain ⟨hlt, hinum, htype, hsize, hdisk⟩ := h.copy_some hip
  subst hinum
  cases Disk.writei_cases h.sound h.owned (table_of_some hip) hlt off.toNat_lt n.toNat_lt hc with
  | inl hidle =>
    obtain ⟨rfl, rfl⟩ := hidle
    refine .of_extends h hip ?_ rfl
    rw [Disk.update_table (table_of_some hip)]
    exact .refl _ h.sound h.owned
  | inr hw =>
    obtain ⟨-, hoff, hmax, -, hw⟩ := hw
    have htype' : ip'.type ≠ 0 := by
      rw [hw.inode]
      exact htype
    refine ⟨hw.toSpares, ?_, htype', ?_, ?_⟩
    · rw [hw.inode]
    · rw [hw.size]
      exact Nat.max_lt.mpr ⟨hsize, Nat.lt_of_le_of_lt hmax (by decide)⟩
    · cases hw.own with
      | inl hown => rwa [hown]
      | inr hown => rwa [hown]

theorem calls_iput (h : Good s) (hip : s.inode m = some ip) :
    ∃ fs1, s.disk.itrunc ip = .ok (fs1, ip.emptied) ∧
      Calls s m (fs1.iupdate { ip.emptied with type := 0 }) none := by
  obtain ⟨hlt, hinum, -⟩ := h.copy_some hip
  obtain ⟨fs1, hok, hc⟩ := calls_itrunc h hip
  have hlt1 : m < fs1.sb.ninodes := hc.spares.sb ▸ hlt
  have hold : ∀ d ∈ update s.table m ((some ip.emptied).map Inode.toDinode) m,
      ∀ i, d.addrs i = 0 := by
    intro d hd i
    rw [update_self] at hd
    cases hd
    rfl
  have hworks := Disk.works_setDinode_empty hc.spares.sound hc.spares.owned hlt1
    { ip.emptied.toDinode with type := 0 } (o := none) hold (by simp)
  rw [update_idem] at hworks
  have hfits : Dinode.Fits { ip.emptied.toDinode with type := 0 } :=
    ⟨show 0 < 2 ^ 32 by decide, fun _ => show 0 < 2 ^ 32 by decide⟩
  obtain rfl : ip.emptied.inum = m := hinum
  refine ⟨fs1, hok, hc.spares.trans hworks.toSpares, ?_⟩
  rw [Copy, Disk.iupdate, Disk.dinode_setDinode_same fs1 ip.emptied.inum hfits]

/-- **What a call does.** -/
theorem call_calls (h : Good s) (hip : s.inode m = some ip) {c : Call}
    (hg : s.Updated (.call m c)) (hc : call s.disk ip c = .ok (fs', o)) : Calls s m fs' o := by
  cases c with
  | bmap bn =>
    obtain ⟨⟨fs1, ip1, a⟩, hb, hc⟩ := bind_eq_ok.mp hc
    cases hc
    obtain ⟨hmaps, hip1⟩ := Disk.bmap_maps h.sound h.owned (table_of_some hip) hb
    exact .of_extends h hip hmaps.toExtends hip1
  | readi dst off n =>
    obtain ⟨⟨fs1, ip1, r, dst1⟩, hr, hc⟩ := bind_eq_ok.mp hc
    cases hc
    obtain ⟨he, hip1⟩ := Disk.readi_extends h.sound h.owned (table_of_some hip) hr
    exact .of_extends h hip he hip1
  | writei src off n =>
    obtain ⟨⟨fs1, ip1, r⟩, hw, hc⟩ := bind_eq_ok.mp hc
    cases hc
    exact calls_writei h hip hw
  | itrunc =>
    obtain ⟨fs1, hok, hcalls⟩ := calls_itrunc h hip
    rw [call, hok] at hc
    cases hc
    exact hcalls
  | update major minor nlink =>
    cases hc
    exact calls_update h hip major minor nlink
  | iput =>
    rw [call] at hc
    split at hc
    · obtain ⟨fs1, hok, hcalls⟩ := calls_iput h hip
      rw [hok] at hc
      cases hc
      exact hcalls
    · next hlink =>
      cases hc
      obtain ⟨-, hinum, htype, hsize, hdisk⟩ := h.copy_some hip
      subst hinum
      -- what is read again is what was in memory
      rw [hg ip hip hlink]
      refine ⟨?_, rfl, htype, hsize, hdisk⟩
      rw [Option.map_some, show (copyOf ip.inum ip.toDinode).toDinode = ip.toDinode from rfl,
        Disk.update_table (table_of_some hip)]
      exact (Disk.Works.refl _ h.sound h.owned).toSpares

theorem table_update (s : Inodes) (m : Nat) (o : Option Inode) (fs : Disk) :
    table { disk := fs, inode := update s.inode m o } =
      update s.table m (o.map Inode.toDinode) := by
  funext k
  by_cases hk : k = m
  · subst hk
    simp [table]
  · simp [table, hk]

theorem Calls.good (hc : Calls s m fs' o) (h : Good s) (hm : m < s.disk.sb.ninodes) :
    Good { disk := fs', inode := update s.inode m o } where
  sound := hc.spares.sound
  owned := table_update s m o fs' ▸ hc.spares.owned
  covered := table_update s m o fs' ▸ hc.spares.covered h.covered
  lt k ip hk := by
    show k < fs'.sb.ninodes
    rw [hc.spares.sb]
    by_cases hkm : k = m
    · rwa [hkm]
    · replace hk : update s.inode m o k = some ip := hk
      rw [update_of_ne hkm] at hk
      exact h.lt k ip hk
  copy k hk := by
    replace hk : k < s.disk.sb.ninodes := hc.spares.sb ▸ hk
    show Copy fs' k (update s.inode m o k)
    by_cases hkm : k = m
    · rw [hkm, update_self]
      exact hc.copy
    have hcopy := h.copy k hk
    have hdinode := hc.spares.dinode k hk hkm
    rw [update_of_ne hkm]
    revert hcopy
    cases s.inode k with
    | none => simp only [Copy, hdinode, imp_self]
    | some ip => simp only [Copy, hdinode, imp_self]

theorem calls_ialloc (h : Good s) {type : Int16} (htype : type ≠ 0)
    (hc : s.disk.ialloc type = .ok (fs', m)) :
    Calls s m fs' (copyOf m (Disk.newDinode type)) ∧ m < s.disk.sb.ninodes := by
  obtain ⟨rfl, -, hlt, hfree⟩ := Disk.ialloc_eq hc
  have hnone : s.inode m = none := by
    have hcopy := h.copy m hlt
    revert hcopy
    cases s.inode m with
    | none => simp
    | some ip => simp [Copy, hfree]
  have hold : ∀ d ∈ s.table m, ∀ i, d.addrs i = 0 := by
    rw [table, hnone]
    simp
  have hworks := Disk.works_setDinode_empty h.sound h.owned hlt (Disk.newDinode type)
    (o := some (Disk.newDinode type)) hold fun d hd i => by
      cases hd
      rfl
  have hfits : (Disk.newDinode type).Fits :=
    ⟨show 0 < 2 ^ 32 by decide, fun _ => show 0 < 2 ^ 32 by decide⟩
  refine ⟨⟨hworks.toSpares, rfl, htype, show 0 < 2 ^ 32 by decide, ?_⟩, hlt⟩
  rw [Disk.dinode_setDinode_same _ _ hfits]
  exact htype

theorem Good.next (h : Good s) {a : Act} (hg : s.Updated a) (hn : s.next a = .ok s') : Good s' := by
  cases a with
  | call ino c =>
    rw [Inodes.next] at hn
    cases hip : s.inode ino with
    | none =>
      rw [hip] at hn
      cases hn
      exact h
    | some ip =>
      rw [hip] at hn
      obtain ⟨⟨fs', o⟩, hc, hn⟩ := bind_eq_ok.mp hn
      cases hn
      exact (call_calls h hip hg hc).good h (h.lt ino ip hip)
  | ialloc type =>
    obtain ⟨⟨fs', ino⟩, hc, hn⟩ := bind_eq_ok.mp hn
    cases hn
    obtain ⟨hcalls, hlt⟩ := calls_ialloc h type.property hc
    exact hcalls.good h hlt

theorem table_ofDisk (fs : Disk) : (ofDisk fs).table = fs.table := by
  funext m
  cases hd : fs.table m with
  | none => simp [table, ofDisk, hd]
  | some d => simp [table, ofDisk, hd, copyOf]

theorem good_ofDisk {fs : Disk} (hs : fs.Sound) (ho : fs.Owned fs.table)
    (hc : fs.Covered fs.table) :
    Good (ofDisk fs) where
  sound := hs
  owned := table_ofDisk fs ▸ ho
  covered := table_ofDisk fs ▸ hc
  lt m ip hm := by
    by_contra hge
    have hnone : (ofDisk fs).inode m = none := by
      simp only [ofDisk, Disk.table, Option.map_eq_none_iff]
      exact if_neg fun h => hge h.1
    rw [hnone] at hm
    contradiction
  copy m hm := by
    show Copy fs m ((fs.table m).map (copyOf m))
    by_cases htype : (fs.dinode m).type = 0
    · rw [Disk.table, if_neg (by simp [htype])]
      exact htype
    · rw [Disk.table, if_pos ⟨hm, htype⟩]
      exact ⟨rfl, htype, (getDinode_fits _ _).size, htype⟩

theorem good_of_reachable (h : s.ReachableBy Updated) : Good s := by
  refine Reach.inv Good ?_ ?_ h
  · rintro s ⟨fs, hs, ho, hc, rfl⟩
    exact good_ofDisk hs ho hc
  · intro s a s' hgood hg hn
    cases hr : s.next a with
    | error e =>
      rw [hr] at hn
      contradiction
    | ok s1 =>
      rw [hr] at hn
      cases hn
      exact hgood.next hg hr

/-! ## No block is freed twice -/

section

variable {fs : Disk}

theorem avoids_balloc (fs : Disk) : Avoids .bfree fs.balloc := by
  unfold Disk.balloc
  split
  · exact avoids_error (by decide)
  · exact avoids_ok

theorem avoids_inodeEntry (fs : Disk) (ip : Inode) (i : Fin (NDIRECT + 2)) :
    Avoids .bfree (fs.inodeEntry ip i) := by
  unfold Disk.inodeEntry
  split
  · exact (avoids_balloc fs).returns
  · exact avoids_ok

theorem avoids_indexEntry (fs : Disk) (b j : Nat) : Avoids .bfree (fs.indexEntry b j) := by
  unfold Disk.indexEntry
  split
  · exact (avoids_balloc fs).returns
  · exact avoids_ok

theorem avoids_bmap (fs : Disk) (ip : Inode) (bn : Nat) : Avoids .bfree (fs.bmap ip bn) := by
  unfold Disk.bmap
  split
  · exact avoids_inodeEntry _ _ _
  simp only
  split
  · exact (avoids_inodeEntry _ _ _).bind fun _ =>
      (avoids_indexEntry _ _ _).returns
  split
  · exact (avoids_inodeEntry _ _ _).bind fun _ => (avoids_indexEntry _ _ _).bind fun _ =>
      (avoids_indexEntry _ _ _).returns
  · exact avoids_error (by decide)

theorem avoids_readLoop (fs : Disk) (ip : Inode) (dst : Bytes) (tot off n fuel : Nat) :
    Avoids .bfree (fs.readLoop ip dst tot off n fuel) := by
  induction fuel generalizing fs ip dst tot off with
  | zero => exact avoids_ok
  | succ fuel ih =>
    unfold Disk.readLoop
    split
    · exact (avoids_bmap _ _ _).bind fun _ => ih _ _ _ _ _
    · exact avoids_ok

theorem avoids_readi (fs : Disk) (ip : Inode) (dst : Bytes) (off n : Nat) :
    Avoids .bfree (fs.readi ip dst off n) := by
  unfold Disk.readi
  split
  · split
    · exact avoids_ok
    · split <;> exact avoids_ok
  · split
    · exact avoids_ok
    · exact (avoids_readLoop _ _ _ _ _ _ _).returns

theorem avoids_writeLoop (fs : Disk) (ip : Inode) (src : Bytes) (tot off n fuel : Nat) :
    Avoids .bfree (fs.writeLoop ip src tot off n fuel) := by
  induction fuel generalizing fs ip tot off with
  | zero => exact avoids_ok
  | succ fuel ih =>
    unfold Disk.writeLoop
    split
    · exact (avoids_bmap _ _ _).bind fun _ => ih _ _ _ _
    · exact avoids_ok

theorem avoids_writei (fs : Disk) (ip : Inode) (src : Bytes) (off n : Nat) :
    Avoids .bfree (fs.writei ip src off n) := by
  unfold Disk.writei
  split
  · split
    · exact avoids_ok
    · split <;> exact avoids_ok
  · split
    · exact avoids_ok
    split
    · exact avoids_ok
    · refine (avoids_writeLoop _ _ _ _ _ _ _).bind fun ⟨fs, ip, off⟩ => ?_
      simp only
      split <;> exact avoids_ok

end

theorem avoids_call (h : Good s) (hip : s.inode m = some ip) (c : Call) :
    Avoids .bfree (call s.disk ip c) := by
  cases c with
  | bmap bn => exact (avoids_bmap _ _ _).returns
  | readi dst off n => exact (avoids_readi _ _ _ _ _).returns
  | writei src off n => exact (avoids_writei _ _ _ _ _).returns
  | itrunc =>
    obtain ⟨fs1, hok, -⟩ := calls_itrunc h hip
    rw [call, hok]
    exact avoids_ok
  | update major minor nlink => exact avoids_ok
  | iput =>
    rw [call]
    split
    · obtain ⟨fs1, hok, -⟩ := calls_iput h hip
      rw [hok]
      exact avoids_ok
    · exact avoids_ok

theorem avoids_next (h : Good s) (a : Act) : Avoids .bfree (s.next a) := by
  cases a with
  | call ino c =>
    rw [next]
    cases hip : s.inode ino with
    | none => exact avoids_ok
    | some ip => exact (avoids_call h hip c).returns
  | ialloc type =>
    refine Avoids.bind ?_ fun _ => avoids_ok
    unfold Disk.ialloc
    split
    · exact avoids_error (by decide)
    · exact avoids_ok

/-- Every block number at any level of any allocated inode names a block of the data
area that is in use and stands in one place only, and every block of the data area in
use has its number in an allocated inode.  So `balloc` does not return a block in use
and `bfree` does not free a free block. -/
structure OneOwner (s : Inodes) : Prop where
  used : ∀ x, s.disk.held s.table x ≠ 0 → InData s.disk.sb (s.disk.held s.table x) ∧
    s.disk.marked (s.disk.held s.table x) = true ∧
    ∀ y, s.disk.held s.table y = s.disk.held s.table x → y = x
  reached : ∀ b, InData s.disk.sb b → s.disk.marked b = true → ∃ x, s.disk.held s.table x = b
  allocated : ∀ m, (s.table m).isSome ↔ m < s.disk.sb.ninodes ∧ (s.disk.dinode m).type ≠ 0
  balloc : ∀ fs' b, s.disk.balloc = .ok (fs', b) →
    InData s.disk.sb b ∧ s.disk.marked b = false ∧ ∀ x, s.disk.held s.table x ≠ b
  bfree : ∀ a, s.next a ≠ .error .bfree

/-- **Every block has one owner** in every state reached from a disk whose blocks are
owned, if every inode with links that leaves the cache is on the disk as it is in
memory. -/
theorem blocks_owned (h : s.ReachableBy Updated) : OneOwner s := by
  have hg := good_of_reachable h
  refine ⟨fun x hx => ⟨hg.owned.mem_area x hx, (hg.owned.mem_used x hx).2, fun y hy => ?_⟩,
    fun b hb hmarked => hg.covered b hb ⟨hb.2, hmarked⟩, fun m => ?_, fun fs' b hb => ?_,
    fun a => (avoids_next hg a).ne_error⟩
  · exact hg.owned.inj y x (by rwa [hy]) hy
  · rw [table, Option.isSome_map]
    cases hip : s.inode m with
    | none =>
      simp only [Option.isSome_none, Bool.false_eq_true, false_iff, not_and, not_not]
      intro hm
      have hcopy := hg.copy m hm
      rwa [hip] at hcopy
    | some ip =>
      obtain ⟨hlt, -, -, -, hdisk⟩ := hg.copy_some hip
      exact iff_of_true rfl ⟨hlt, hdisk⟩
  · have htakes := Disk.takes_of_balloc hg.sound hb
    refine ⟨htakes.data, htakes.free, fun x hx => ?_⟩
    by_cases hzero : s.disk.held s.table x = 0
    · exact hg.sound.layout.data_ne_zero htakes.data (hx ▸ hzero)
    · exact Disk.held_ne_of_free hg.owned htakes.free hzero hx

/-- A disk with one file of one block. -/
theorem start_oneFile {guard : Inodes → Act → Prop} {f : Inode}
    (hf : f.addrs = Disk.smallFile.addrs) (hfits : f.toDinode.Fits)
    (hs : (Disk.oneFile f Disk.smallMap).Sound) (htype : f.type ≠ 0)
    (hfree : ∀ m < 8, m ≠ 1 → ((Disk.oneFile f Disk.smallMap).dinode m).type = 0)
    (hmarked : ∀ b < 100, 34 ≤ b → ((Disk.oneFile f Disk.smallMap).marked b = true ↔ b = 34)) :
    ReachableBy guard (ofDisk (Disk.oneFile f Disk.smallMap)) := by
  have hfile : (Disk.oneFile f Disk.smallMap).dinode 1 = f.toDinode := getDinode_putDinode _ _ hfits
  have htable : (Disk.oneFile f Disk.smallMap).table = Disk.oneTable f := by
    funext m
    by_cases hone : m = 1
    · subst hone
      have hlt : 1 < (Disk.oneFile f Disk.smallMap).sb.ninodes := Nat.lt_of_sub_eq_succ rfl
      rw [Disk.table, hfile, if_pos ⟨hlt, htype⟩, Disk.oneTable, update_self]
    · rw [Disk.oneTable, update_of_ne hone, Disk.table, if_neg]
      exact fun h => h.2 (hfree m h.1 hone)
  refine .start ⟨_, hs, ?_, ?_, rfl⟩
  · rw [htable]
    have harea : InData (Disk.smallDisk).sb 34 := by decide
    exact Disk.owned_oneTable hf harea ⟨harea.2, (hmarked 34 (by decide) le_rfl).mpr rfl⟩
  · intro b hb hused
    obtain rfl := (hmarked b hb.2 hb.1).mp hused.2
    exact ⟨(1, .top 0), by rw [htable, Disk.held_oneTable hf, if_pos rfl]⟩

/-- The block of the file is freed, two blocks are written, and the last reference goes. -/
theorem blocks_owned_smallDisk : ∃ s : Inodes, OneOwner s ∧ s.disk.marked 34 = true ∧
    s.disk.marked 35 = true := by
  have hstart : ReachableBy Updated (ofDisk Disk.smallDisk) := start_oneFile rfl
    ⟨by decide, by decide⟩ Disk.smallDisk_sound (by decide) (by decide +kernel) (by decide +kernel)
  obtain ⟨s, hs, hP⟩ := hstart.exists_of_run
    (P := fun s => s.disk.marked 34 = true ∧ s.disk.marked 35 = true)
    [.call 1 .itrunc, .call 1 (.writei (fun _ => 7) 0 600), .call 1 .iput] (by decide +kernel)
  exact ⟨s, blocks_owned hs, hP⟩

/-- A file of 600 bytes whose second block is missing. -/
def holedFile : Inode := { Disk.smallFile with size := 600 }

/-- A read of the file takes the block 35, whose number is lost with the last reference:
the block stays in use and is nowhere in the file system. -/
theorem not_blocks_owned_holedFile :
    ∃ s : Inodes, s.ReachableBy (fun _ _ => True) ∧ ¬ OneOwner s := by
  have hstart : ReachableBy (fun _ _ => True) (ofDisk (Disk.oneFile holedFile Disk.smallMap)) :=
    start_oneFile rfl ⟨by decide, by decide⟩
      ⟨⟨by decide, by decide, by decide, by decide, by decide⟩, by decide +kernel, by decide +kernel⟩
      (by decide) (by decide +kernel) (by decide +kernel)
  obtain ⟨s, hs, hsb, harea, hmarked, hcopy, hnone⟩ := hstart.exists_of_run
    (P := fun s => s.disk.sb.ninodes = 8 ∧ InData s.disk.sb 35 ∧ s.disk.marked 35 = true ∧
      s.table 1 = some holedFile.toDinode ∧ ∀ m < 8, m ≠ 1 → s.table m = none)
    [.call 1 (.readi (fun _ => 0) 0 600), .call 1 .iput] (by decide +kernel)
  refine ⟨s, hs, fun h => ?_⟩
  have htable : s.table = Disk.oneTable holedFile := by
    funext m
    by_cases hone : m = 1
    · rw [hone, hcopy, Disk.oneTable, update_self]
    rw [Disk.oneTable, update_of_ne hone]
    by_cases hm : m < 8
    · exact hnone m hm hone
    · rw [← Option.not_isSome_iff_eq_none, h.allocated m, hsb]
      exact fun h => hm h.1
  obtain ⟨x, hx⟩ := h.reached 35 harea hmarked
  rw [htable, Disk.held_oneTable (f := holedFile) rfl] at hx
  split at hx <;> contradiction

end Inodes
end Fs
end Xv6

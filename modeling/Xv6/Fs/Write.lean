import Xv6.Fs.Content

/-!
# Xv6.Fs.Write

`writei`: the turns of its loop write the bytes of the range from one block to
the next, whichever of the blocks had to be allocated, and leave all other bytes
of all files alone.
-/

namespace Xv6

open Lib Function

namespace Fs
namespace Disk

variable {fs fs' fs1 fs2 : Disk} {I I' I1 I2 : Table} {ino : Nat} {ip ip' : Inode}
  {d d' d1 d2 : Dinode}

/-! ## One block -/

/-- New blocks are zero, as the missing ones were. -/
theorem Extends.byteAt_eq (h : Extends ino fs I fs' I') (hI : I ino = some d)
    (hI' : I' ino = some d') (i : Nat) : fs'.byteAt d' i = fs.byteAt d i := by
  have hold : fs.held I (ino, locOf (i / BSIZE)) = fs.ptr d (locOf (i / BSIZE)) := held_of_some hI _
  have hnew : fs'.held I' (ino, locOf (i / BSIZE)) = fs'.ptr d' (locOf (i / BSIZE)) :=
    held_of_some hI' _
  have hdata := locOf_data (i / BSIZE)
  unfold byteAt
  rw [← hold, ← hnew]
  by_cases hzero : fs.held I (ino, locOf (i / BSIZE)) = 0
  · rw [if_pos hzero]
    by_cases hzero' : fs'.held I' (ino, locOf (i / BSIZE)) = 0
    · rw [if_pos hzero']
    · rw [if_neg hzero', h.fresh _ hdata hzero hzero']
  · have hkept := h.kept _ hzero
    rw [if_neg hzero, hkept, if_neg hzero, h.block _ hdata hzero]

theorem byteAt_logWrite (ho : Owned fs I) (hI : I ino = some d) {bn : Nat} (hbn : bn < MAXFILE)
    (hne : fs.ptr d (locOf bn) ≠ 0) (data : Bytes) {i : Nat} (hi : i < MAXFILE * BSIZE) :
    (fs.logWrite (fs.ptr d (locOf bn)) data).byteAt d i =
      if i / BSIZE = bn then data (i % BSIZE) else fs.byteAt d i := by
  have hheld : ∀ l, fs.held I (ino, l) = fs.ptr d l := held_of_some hI
  rw [← hheld] at hne
  have hkeep := held_logWrite ho ino (locOf_data bn) data
  have hptr : ∀ l, (fs.logWrite (fs.ptr d (locOf bn)) data).ptr d l = fs.ptr d l := fun l => by
    rw [← hheld (locOf bn), ← hheld l, ← held_of_some hI, hkeep]
  unfold byteAt
  rw [hptr]
  by_cases hin : i / BSIZE = bn
  · rw [if_pos hin, hin, if_neg (by rwa [← hheld]), block_logWrite_same]
  rw [if_neg hin]
  by_cases hzero : fs.ptr d (locOf (i / BSIZE)) = 0
  · rw [if_pos hzero, if_pos hzero]
  have hother : fs.ptr d (locOf (i / BSIZE)) ≠ fs.ptr d (locOf bn) := fun heq => by
    rw [← hheld, ← hheld] at heq
    have hplace := ho.inj _ _ (by rwa [hheld]) heq
    exact hin (locOf_injective (div_lt_maxfile hi) hbn (congrArg Prod.snd hplace))
  rw [if_neg hzero, if_neg hzero, block_logWrite_of_ne fs data hother]

theorem lack_logWrite (ho : Owned fs I) (ino : Nat) {l : Loc} (hd : l.Data) (data : Bytes)
    (S : Finset Loc) :
    (fs.logWrite (fs.held I (ino, l)) data).lack I ino S = fs.lack I ino S := by
  rw [lack, held_logWrite ho ino hd, lack]

/-! ## A range of bytes -/

/-- The bytes of the range from `lo` to `hi` of inode `ino` are those of `f`,
the others are what they were. -/
structure Writes (ino : Nat) (f : Bytes) (lo hi : Nat) (fs : Disk) (I : Table) (d : Dinode)
    (fs' : Disk) (I' : Table) (d' : Dinode) : Prop extends Works ino fs I fs' I' where
  here : I' ino = some d'
  own : ino < fs.sb.ninodes → fs'.dinode ino = fs.dinode ino
  ptr : ∀ i, lo ≤ i → i < hi → fs'.ptr d' (locOf (i / BSIZE)) ≠ 0
  inside : ∀ i, lo ≤ i → i < hi → fs'.byteAt d' i = f i
  outside : ∀ i < MAXFILE * BSIZE, ¬(lo ≤ i ∧ i < hi) → fs'.byteAt d' i = fs.byteAt d i
  same : (∀ i, lo ≤ i → i < hi → fs.ptr d (locOf (i / BSIZE)) ≠ 0) → d' = d
  rest : ∀ l, l.Data → (∀ i, lo ≤ i → i < hi → l ≠ locOf (i / BSIZE)) → fs'.ptr d' l = fs.ptr d l
  balance : ∀ S, (∀ i, lo ≤ i → i < hi → path (i / BSIZE) ⊆ S) →
    fs'.free + fs.lack I ino S = fs.free + fs'.lack I' ino S
  logs : ∀ S, (∀ i, lo ≤ i → i < hi → path (i / BSIZE) ⊆ S) → UpClosed S → Logs ino S fs fs' I'

theorem Works.ptr_ne_zero (h : Works ino fs I fs' I') (hI : I ino = some d)
    (hI' : I' ino = some d') {l : Loc} (hl : fs.ptr d l ≠ 0) : fs'.ptr d' l ≠ 0 := by
  have hkept := h.kept (ino, l) (by rwa [held_of_some hI])
  rw [held_of_some hI, held_of_some hI'] at hkept
  rwa [hkept]

theorem Writes.none {f : Bytes} {lo hi : Nat} (hs : Sound fs) (ho : Owned fs I)
    (hI : I ino = some d) (h : hi ≤ lo) : Writes ino f lo hi fs I d fs I d :=
  { Works.refl ino hs ho with
    here := hI
    own := fun _ => rfl
    ptr := fun i _ _ => by omega
    inside := fun i _ _ => by omega
    outside := fun _ _ _ => rfl
    same := fun _ => rfl
    rest := fun _ _ _ => rfl
    balance := fun _ _ => rfl
    logs := fun S _ _ => .refl ino S fs I }

theorem Writes.trans {f : Bytes} {lo mid hi : Nat} (hI : I ino = some d) (hlo : lo ≤ mid)
    (hhi : mid ≤ hi) (hmax : hi ≤ MAXFILE * BSIZE) (h1 : Writes ino f lo mid fs I d fs1 I1 d1)
    (h2 : Writes ino f mid hi fs1 I1 d1 fs2 I2 d2) : Writes ino f lo hi fs I d fs2 I2 d2 :=
  { h1.toWorks.trans h2.toWorks with
    here := h2.here
    own := fun hino => (h2.own (h1.sb ▸ hino)).trans (h1.own hino)
    ptr := fun i hi1 hi2 => by
      by_cases hmid : i < mid
      · exact h2.toWorks.ptr_ne_zero h1.here h2.here (h1.ptr i hi1 hmid)
      · exact h2.ptr i (by omega) hi2
    inside := fun i hi1 hi2 => by
      by_cases hmid : i < mid
      · rw [h2.outside i (by omega) (by omega), h1.inside i hi1 hmid]
      · exact h2.inside i (by omega) hi2
    outside := fun i hi1 hi2 => by
      rw [h2.outside i hi1 (by omega), h1.outside i hi1 (by omega)]
    same := fun hall => by
      have heq := h1.same fun i hi1 hi2 => hall i hi1 (by omega)
      rw [h2.same fun i hi1 hi2 =>
        h1.toWorks.ptr_ne_zero hI h1.here (hall i (by omega) hi2), heq]
    rest := fun l hd hl => by
      rw [h2.rest l hd fun i hi1 hi2 => hl i (by omega) hi2,
        h1.rest l hd fun i hi1 hi2 => hl i hi1 (by omega)]
    balance := fun S hS => by
      have hb1 := h1.balance S fun i hi1 hi2 => hS i hi1 (by omega)
      have hb2 := h2.balance S fun i hi1 hi2 => hS i (by omega) hi2
      omega
    logs := fun S hS hup =>
      (h1.logs S (fun i hi1 hi2 => hS i hi1 (by omega)) hup).trans
        (h2.logs S (fun i hi1 hi2 => hS i (by omega) hi2) hup) h1.sb h2.kept }

variable {base tot m : Nat}

theorem Maps.writes (src : Bytes) {a : Nat}
    (h : Maps ino (locOf ((base + tot) / BSIZE)) (path ((base + tot) / BSIZE)) a fs I fs1 I')
    (hI : I ino = some d) (hI' : I' ino = some d')
    (hsame : fs.ptr d (locOf ((base + tot) / BSIZE)) ≠ 0 → d' = d)
    (hpos : 0 < m) (hm : m ≤ BSIZE - (base + tot) % BSIZE) (hmax : base + tot < MAXFILE * BSIZE) :
    Writes ino (fun i => src (i - base)) (base + tot) (base + (tot + m)) fs I d
      (fs1.logWrite a (copyTo (fs1.block a) ((base + tot) % BSIZE) (fun i => src (tot + i)) m))
      I' d' := by
  have ha : fs1.ptr d' (locOf ((base + tot) / BSIZE)) = a := by
    rw [← h.here, held_of_some hI']
  have hne : fs1.ptr d' (locOf ((base + tot) / BSIZE)) ≠ 0 := ha ▸ h.ne_zero
  have hbn := div_lt_maxfile hmax
  have hold := h.toExtends.byteAt_eq hI hI'
  generalize hdata : copyTo (fs1.block a) ((base + tot) % BSIZE) (fun i => src (tot + i)) m = data
  have hwrite : Works ino fs1 I' (fs1.logWrite a data) I' := by
    have hw := works_logWrite h.sound h.owned (locOf_data _) (h.here ▸ h.ne_zero) data
    rwa [h.here] at hw
  have hbyte : ∀ i < MAXFILE * BSIZE, (fs1.logWrite a data).byteAt d' i =
      if i / BSIZE = (base + tot) / BSIZE then data (i % BSIZE) else fs1.byteAt d' i :=
    fun i hi => by rw [← ha, byteAt_logWrite h.owned hI' hbn hne data hi]
  -- the bytes of the range are all in this block
  have hrange : ∀ i, base + tot ≤ i → i < base + (tot + m) →
      i / BSIZE = (base + tot) / BSIZE ∧ i % BSIZE = (base + tot) % BSIZE + (i - (base + tot)) :=
    fun i hlo hhi => by
      have hin : i - (base + tot) < BSIZE - (base + tot) % BSIZE := by omega
      have hsplit := div_add_of_lt hin
      rwa [Nat.add_sub_cancel' hlo] at hsplit
  refine { h.toExtends.works.trans hwrite with
    here := hI'
    own := fun hino => ?_
    ptr := fun i hlo hhi => ?_
    inside := fun i hlo hhi => ?_
    outside := fun i hi hout => ?_
    same := fun hall => hsame (hall _ le_rfl (by omega))
    rest := fun l hd hl => ?_
    balance := fun S hS => ?_
    logs := fun S hS hup => ?_ }
  · have hino' : ino < fs1.sb.ninodes := h.same.sb ▸ hino
    have harea := h.owned.mem_area _ (h.here ▸ h.ne_zero)
    rw [h.here] at harea
    rw [dinode_logWrite h.sound.layout harea hino', h.same.dinode ino hino]
  · rw [(hrange i hlo hhi).1]
    exact hwrite.ptr_ne_zero hI' hI' hne
  · obtain ⟨hdiv, hmod⟩ := hrange i hlo hhi
    have hi : i < MAXFILE * BSIZE := by
      simp only [BSIZE] at hmax hdiv ⊢
      omega
    rw [hbyte i hi, if_pos hdiv, hmod, ← hdata, copyTo_inside _ _ (by omega) (by omega)]
    congr 1
    omega
  · rw [hbyte i hi]
    by_cases hdiv : i / BSIZE = (base + tot) / BSIZE
    · have hzero : fs1.ptr d' (locOf (i / BSIZE)) ≠ 0 := by rwa [hdiv]
      have hmod : i % BSIZE < (base + tot) % BSIZE ∨ (base + tot) % BSIZE + m ≤ i % BSIZE := by
        simp only [BSIZE] at hdiv ⊢
        omega
      rw [if_pos hdiv, ← hold i, ← hdata, copyTo_outside _ _ hmod, byteAt, if_neg hzero, hdiv, ha]
    · rw [if_neg hdiv, hold i]
  · have hkeep := held_logWrite h.owned ino (locOf_data ((base + tot) / BSIZE)) data
    rw [h.here] at hkeep
    have hrest := h.rest l hd (hl _ le_rfl (by omega))
    rw [← hkeep, held_of_some hI', held_of_some hI] at hrest
    exact hrest
  · have hd := locOf_data ((base + tot) / BSIZE)
    have hlack := lack_logWrite h.owned ino hd data S
    have hfree := free_logWrite h.sound (h.owned.mem_area _ (h.here ▸ h.ne_zero)) data
    rw [h.here] at hlack hfree
    rw [hlack, hfree]
    exact h.balance S (hS _ le_rfl (by omega))
  · have hpath := hS _ le_rfl (by omega)
    refine (h.logs S hpath hup).trans (fun c hc => ?_) h.same.sb hwrite.kept
    change c ∈ a :: fs1.logged at hc
    rcases List.mem_cons.mp hc with rfl | hc
    · refine .inr (.inr ⟨_, hpath (locOf_mem_path _), ?_, h.ne_zero⟩)
      rw [hwrite.kept _ (h.here ▸ h.ne_zero), h.here]
    · exact .inl hc

/-! ## The loop of writei -/

theorem writeLoop_writes (hs : Sound fs) (ho : Owned fs I) (hI : I ino = some ip.toDinode)
    {src : Bytes} {n fuel off' : Nat} (htot : tot ≤ n) (hfuel : n - tot ≤ fuel)
    (hmax : base + n ≤ MAXFILE * BSIZE)
    (h : fs.writeLoop ip src tot (base + tot) n fuel = .ok (fs', ip', off')) :
    Writes ino (fun i => src (i - base)) (base + tot) (base + n) fs I ip.toDinode fs'
        (update I ino (some ip'.toDinode)) ip'.toDinode ∧
      ip' = { ip with addrs := ip'.addrs } ∧ off' = base + n := by
  induction fuel generalizing fs I ip tot with
  | zero =>
    cases h
    rw [update_table hI]
    exact ⟨.none hs ho hI (by omega), rfl, by omega⟩
  | succ fuel ih =>
    unfold writeLoop at h
    by_cases hlt : tot < n
    · rw [if_pos hlt] at h
      obtain ⟨⟨fs1, ip1, a⟩, hbmap, h⟩ := bind_eq_ok.mp h
      have hpos : 0 < BSIZE - (base + tot) % BSIZE := by simp only [BSIZE]; omega
      simp only at h
      generalize hm : min (n - tot) (BSIZE - (base + tot) % BSIZE) = m at h
      obtain ⟨hmaps, hip1⟩ := bmap_maps hs ho hI hbmap
      have hsame : fs.ptr ip.toDinode (locOf ((base + tot) / BSIZE)) ≠ 0 →
          ip1.toDinode = ip.toDinode := fun hne => by
        rw [bmap_of_ne (div_lt_maxfile (by omega)) hne] at hbmap
        cases hbmap
        rfl
      have hturn := hmaps.writes src hI (table_self I ino ip1) hsame (m := m) (by omega)
        (by omega) (by omega)
      rw [Nat.add_assoc] at h
      obtain ⟨hrest, hip', hoff⟩ := ih hturn.sound hturn.owned (table_self I ino ip1) (by omega)
        (by omega) h
      rw [update_idem] at hrest
      refine ⟨hturn.trans hI (by omega) (by omega) hmax hrest, ?_, hoff⟩
      rw [hip', hip1]
    · rw [if_neg hlt] at h
      cases h
      rw [update_table hI]
      exact ⟨.none hs ho hI (by omega), rfl, by omega⟩

/-- The places on the way to the blocks of a range of bytes. -/
def touched (off n : Nat) : Finset Loc := (Finset.range n).biUnion fun i => path ((off + i) / BSIZE)

theorem mem_touched {off n : Nat} {l : Loc} :
    l ∈ touched off n ↔ ∃ i < n, l ∈ path ((off + i) / BSIZE) := by
  simp [touched]

theorem touched_upClosed (off n : Nat) : UpClosed (touched off n) := fun _ hl _ _ hup => by
  obtain ⟨i, hi, hl⟩ := mem_touched.mp hl
  exact mem_touched.mpr ⟨i, hi, up_mem_path hl hup⟩

theorem writeLoop_ok (hs : Sound fs) (ho : Owned fs I) (hI : I ino = some ip.toDinode) (src : Bytes)
    {n : Nat} (fuel : Nat) (hmax : base + n ≤ MAXFILE * BSIZE) {S : Finset Loc}
    (hS : ∀ i, tot ≤ i → i < n → path ((base + i) / BSIZE) ⊆ S)
    (hroom : fs.lack I ino S ≤ fs.free) :
    ∃ r, fs.writeLoop ip src tot (base + tot) n fuel = .ok r := by
  induction fuel generalizing fs I ip tot with
  | zero => exact ⟨_, rfl⟩
  | succ fuel ih =>
    unfold writeLoop
    by_cases hlt : tot < n
    · have hbn := div_lt_maxfile (show base + tot < MAXFILE * BSIZE by omega)
      have hpath := hS tot le_rfl hlt
      obtain ⟨fs1, ip1, a, hbmap⟩ := bmap_ok hs ho hI hbn hpath hroom
      obtain ⟨hmaps, -⟩ := bmap_maps hs ho hI hbmap
      have hne := hmaps.here ▸ hmaps.ne_zero
      have hd := locOf_data ((base + tot) / BSIZE)
      rw [if_pos hlt, hbmap, ok_bind]
      simp only
      generalize hm : min (n - tot) (BSIZE - (base + tot) % BSIZE) = m
      generalize copyTo (fs1.block a) ((base + tot) % BSIZE) (fun i => src (tot + i)) m = data
      have hworks := works_logWrite hmaps.sound hmaps.owned hd hne data
      have hlack := lack_logWrite hmaps.owned ino hd data S
      have hfree := free_logWrite hmaps.sound (hmaps.owned.mem_area _ hne) data
      rw [hmaps.here] at hworks hlack hfree
      rw [Nat.add_assoc]
      refine ih hworks.sound hworks.owned (table_self I ino ip1)
        (fun i hi => hS i (by omega)) ?_
      rw [hlack, hfree]
      exact hmaps.room S hpath hroom
    · exact ⟨_, if_neg hlt⟩

/-! ## writei -/

theorem Owned.fits (hs : Sound fs) (ho : Owned fs I) (hI : I ino = some d)
    (hsize : d.size < 2 ^ 32) :
    d.Fits where
  size := hsize
  addrs i := by
    have hheld : fs.held I (ino, .top i) = d.addrs i := held_of_some hI _
    by_cases hzero : d.addrs i = 0
    · rw [hzero]
      decide
    · have harea := ho.mem_area _ (hheld ▸ hzero)
      rw [hheld] at harea
      exact Nat.lt_trans harea.2 hs.layout.size

theorem byteAt_congr (haddrs : d'.addrs = d.addrs) (i : Nat) : fs.byteAt d' i = fs.byteAt d i := by
  have hptr : fs.ptr d' = fs.ptr d := ptr_congr haddrs fun _ _ _ _ _ => rfl
  rw [byteAt, hptr, byteAt]

section

variable (hs : Sound fs) (hino : ino < fs.sb.ninodes)
include hs hino

theorem block_setDinode_data (d' : Dinode) {b : Nat} (hb : InData fs.sb b) :
    (fs.setDinode ino d').block b = fs.block b :=
  block_setDinode_of_ne fs d' (hs.layout.iblock_ne_data hino hb).symm

theorem free_setDinode (d' : Dinode) : (fs.setDinode ino d').free = fs.free := by
  simp only [free, sb_setDinode, marked_setDinode hs.layout hino]

variable (ho : Owned fs I)
include ho

theorem ptr_setDinode (hI : I m = some d) (d' : Dinode) : (fs.setDinode ino d').ptr d = fs.ptr d :=
  ptr_eq_of_blocks hI fun _ hp _ => block_setDinode_data hs hino d' (ho.mem_area _ hp)

theorem byteAt_setDinode (hI : I m = some d) (d' : Dinode) (i : Nat) :
    (fs.setDinode ino d').byteAt d i = fs.byteAt d i := by
  unfold byteAt
  rw [ptr_setDinode hs hino ho hI]
  by_cases hzero : fs.ptr d (locOf (i / BSIZE)) = 0
  · rw [if_pos hzero, if_pos hzero]
  · have harea := ho.mem_area (m, locOf (i / BSIZE)) (by rwa [held_of_some hI])
    rw [held_of_some hI] at harea
    rw [if_neg hzero, if_neg hzero, block_setDinode_data hs hino d' harea]

/-- Writing an inode to the disk, when no block number changes. -/
theorem works_setDinode_of_held (o : Option Dinode)
    (hheld : (fs.setDinode ino d').held (update I ino o) = fs.held I) :
    Works ino fs I (fs.setDinode ino d') (update I ino o) := by
  have hused : (fs.setDinode ino d').used = fs.used := by
    ext b
    simp only [used, Set.mem_ofPred_eq, sb_setDinode, marked_setDinode hs.layout hino]
  refine ⟨⟨rfl, fun m _ hm => dinode_setDinode_of_ne fs d' hm, ⟨hs.layout, ?_, ?_⟩, ?_, ?_,
    fun m hm => update_of_ne hm _ _, fun _ _ => by rw [hheld],
    fun x _ _ hx => block_setDinode_data hs hino d' (ho.mem_area x hx)⟩, fun _ _ => by rw [hheld], ?_⟩
  · rw [readsb_setDinode hs.layout, hs.readsb, sb_setDinode]
  · intro b hb hlt
    rw [marked_setDinode hs.layout hino]
    exact hs.reserved b hb hlt
  · rw [Owned, hheld, hused]
    exact ho
  · intro hc
    rw [Covered, hheld, hused]
    exact hc
  · rw [hheld, hused]
    exact .refl ..

theorem held_setDinode_of_ne (o : Option Dinode) (hm : m ≠ ino) (l : Loc) :
    (fs.setDinode ino d').held (update I ino o) (m, l) = fs.held I (m, l) := by
  simp only [held, update_of_ne hm]
  cases hIm : I m with
  | none => rfl
  | some dm => simp only [ptr_setDinode hs hino ho hIm d']

theorem held_setDinode (hI : I ino = some d) (haddrs : d'.addrs = d.addrs) :
    (fs.setDinode ino d').held (update I ino (some d')) = fs.held I := by
  funext ⟨m, l⟩
  by_cases hm : m = ino
  · subst hm
    rw [held_of_some (update_self ..), held_of_some hI, ← ptr_setDinode hs hino ho hI d',
      ptr_congr haddrs fun _ _ _ _ _ => rfl]
  · exact held_setDinode_of_ne hs hino ho _ hm l

/-- Writing an inode to the disk, with the blocks it has. -/
theorem works_setDinode (hI : I ino = some d) (haddrs : d'.addrs = d.addrs) :
    Works ino fs I (fs.setDinode ino d') (update I ino (some d')) :=
  works_setDinode_of_held hs hino ho _ (held_setDinode hs hino ho hI haddrs)

end

/-- An inode without block numbers has none below. -/
theorem ptr_of_empty (hd : ∀ i, d.addrs i = 0) (l : Loc) : fs.ptr d l = 0 := by
  refine Loc.upInduction (P := fun l => fs.ptr d l = 0) hd (fun l p j hup hp => ?_) l
  rw [ptr_of_up hup, hp, sub_zero]

/-- Writing an inode to the disk, when neither the old nor the new one has blocks. -/
theorem works_setDinode_empty (hs : Sound fs) (ho : Owned fs I) (hino : ino < fs.sb.ninodes)
    (d' : Dinode) {o : Option Dinode} (hold : ∀ d ∈ I ino, ∀ i, d.addrs i = 0)
    (hnew : ∀ d ∈ o, ∀ i, d.addrs i = 0) :
    Works ino fs I (fs.setDinode ino d') (update I ino o) := by
  have hempty : ∀ (fs : Disk) (I : Table) (l : Loc), (∀ d ∈ I ino, ∀ i, d.addrs i = 0) →
      fs.held I (ino, l) = 0 := fun fs I l h => by
    cases hI : I ino with
    | none => exact held_of_none hI l
    | some d => rw [held_of_some hI, ptr_of_empty (h d hI)]
  refine works_setDinode_of_held hs hino ho o ?_
  funext ⟨m, l⟩
  by_cases hm : m = ino
  · subst hm
    rw [hempty _ _ l (by rwa [update_self]), hempty _ _ l hold]
  · exact held_setDinode_of_ne hs hino ho _ hm l

/-- `n` bytes of `src` have been written at `off`.  If no block below the size was
missing, the inode on the disk is still the inode in memory. -/
structure Wrote (ino : Nat) (src : Bytes) (off n : Nat) (fs : Disk) (I : Table) (ip : Inode)
    (fs' : Disk) (ip' : Inode) : Prop extends
    Works ino fs I fs' (update I ino (some ip'.toDinode)) where
  inode : ip' = { ip with size := max ip.size (off + n), addrs := ip'.addrs }
  ptr : ∀ i, off ≤ i → i < off + n → fs'.ptr ip'.toDinode (locOf (i / BSIZE)) ≠ 0
  inside : ∀ i, off ≤ i → i < off + n → fs'.byteAt ip'.toDinode i = src (i - off)
  outside : ∀ i < MAXFILE * BSIZE, ¬(off ≤ i ∧ i < off + n) →
    fs'.byteAt ip'.toDinode i = fs.byteAt ip.toDinode i
  rest : ∀ l, l.Data → (∀ i, off ≤ i → i < off + n → l ≠ locOf (i / BSIZE)) →
    fs'.ptr ip'.toDinode l = fs.ptr ip.toDinode l
  balance : ∀ S, touched off n ⊆ S → fs'.free + fs.lack I ino S =
    fs.free + fs'.lack (update I ino (some ip'.toDinode)) ino S
  logs : ∀ c ∈ fs'.logged, c = IBLOCK ino fs.sb ∨ c ∈ fs.logged ∨ c ∈ mapBlocks fs.sb ∨
    ∃ l ∈ touched off n, c = fs'.held (update I ino (some ip'.toDinode)) (ino, l)
  own : fs'.dinode ino = fs.dinode ino ∨ fs'.dinode ino = ip'.toDinode
  disk : Dense fs ip.toDinode → fs.dinode ino = ip.toDinode → fs'.dinode ino = ip'.toDinode

variable {src : Bytes} {off n : Nat}

/-- **What `writei` does** to a file, when it does not run out of blocks. -/
theorem writei_wrote (hs : Sound fs) (ho : Owned fs I) (hI : I ip.inum = some ip.toDinode)
    (hino : ip.inum < fs.sb.ninodes) (hdev : ip.type ≠ T_DEV) (hoff : off ≤ ip.size)
    (hmax : off + n ≤ MAXFILE * BSIZE) {r : Int} (h : fs.writei ip src off n = .ok (fs', ip', r)) :
    Wrote ip.inum src off n fs I ip fs' ip' ∧ r = n := by
  have hsum : uint (off + n) = off + n :=
    Nat.mod_eq_of_lt (Nat.lt_of_le_of_lt hmax (by decide))
  unfold writei at h
  rw [if_neg hdev, hsum, if_neg (by omega), if_neg (by omega)] at h
  obtain ⟨⟨fs1, ip1, off'⟩, hloop, h⟩ := bind_eq_ok.mp h
  obtain ⟨hw, hip1, hoff'⟩ := writeLoop_writes hs ho hI (Nat.zero_le n) (by omega) hmax hloop
  have hsize : ip1.size = ip.size := by rw [hip1]
  have hinum : ip1.inum = ip.inum := by rw [hip1]
  simp only [hoff', hsize] at h
  rw [Nat.add_zero] at hw
  have hpath : ∀ S, touched off n ⊆ S → ∀ i, off ≤ i → i < off + n → path (i / BSIZE) ⊆ S :=
    fun S hS i hlo hhi l hl =>
      hS (mem_touched.mpr ⟨i - off, by omega, by rwa [Nat.add_sub_cancel' hlo]⟩)
  have hlogs := hw.logs _ (hpath _ (Finset.Subset.refl _)) (touched_upClosed off n)
  by_cases hgrow : n > 0 ∧ off + n > ip.size
  · rw [if_pos hgrow] at h
    cases h
    have hmaxsize : max ip.size (off + n) = off + n := by omega
    have haddrs : ({ ip1.toDinode with size := off + n } : Dinode).addrs = ip1.addrs := rfl
    have hino1 : ip.inum < fs1.sb.ninodes := hw.sb ▸ hino
    have hupdate := works_setDinode hw.sound hino1 hw.owned hw.here haddrs
    have hfits := Owned.fits hupdate.sound hupdate.owned (update_self ..)
      (show off + n < 2 ^ 32 from Nat.lt_of_le_of_lt hmax (by decide))
    rw [update_idem] at hupdate
    have hbyte : ∀ i, (fs1.setDinode ip.inum { ip1.toDinode with size := off + n }).byteAt
        { ip1.toDinode with size := off + n } i = fs1.byteAt ip1.toDinode i := fun i => by
      rw [byteAt_congr haddrs, byteAt_setDinode hw.sound hino1 hw.owned hw.here]
    have hdisk : fs1.iupdate { ip1 with size := off + n } =
        fs1.setDinode ip.inum { ip1.toDinode with size := off + n } := by rw [iupdate, hinum]
    rw [hdisk]
    refine ⟨{ hw.toWorks.trans hupdate with
      inode := ?_, ptr := ?_, inside := ?_, outside := ?_, rest := fun l hd hl => ?_
      balance := fun S hS => ?_, logs := fun c hc => ?_, own := .inr ?_, disk := ?_ }, rfl⟩
    · rw [hmaxsize, hip1]
    · intro i hlo hhi
      exact hupdate.ptr_ne_zero hw.here (update_self ..) (hw.ptr i hlo hhi)
    · intro i hlo hhi
      rw [hbyte, hw.inside i hlo hhi]
    · intro i hi hout
      rw [hbyte, hw.outside i hi hout]
    · have hptr : ∀ fs : Disk, fs.ptr { ip1.toDinode with size := off + n } = fs.ptr ip1.toDinode :=
        fun fs => ptr_congr haddrs fun _ _ _ _ _ => rfl
      rw [← hw.rest l hd hl]
      show (fs1.setDinode ip.inum _).ptr { ip1.toDinode with size := off + n } l = _
      rw [hptr, ptr_setDinode hw.sound hino1 hw.owned hw.here]
    · have hheld := held_setDinode hw.sound hino1 hw.owned hw.here haddrs
      rw [update_idem] at hheld
      have hlack : (fs1.setDinode ip.inum { ip1.toDinode with size := off + n }).lack
          (update I ip.inum (some { ip1.toDinode with size := off + n })) ip.inum S =
          fs1.lack (update I ip.inum (some ip1.toDinode)) ip.inum S := by
        rw [lack, hheld, lack]
      rw [hlack, free_setDinode hw.sound hino1]
      exact hw.balance S (hpath S hS)
    · change c ∈ IBLOCK ip.inum fs1.sb :: fs1.logged at hc
      rcases List.mem_cons.mp hc with rfl | hc
      · exact .inl (congrArg _ hw.sb)
      rcases hlogs c hc with hc | hc | ⟨l, hl, rfl, hne⟩
      · exact .inr (.inl hc)
      · exact .inr (.inr (.inl hc))
      · exact .inr (.inr (.inr ⟨l, hl, (hupdate.kept _ hne).symm⟩))
    · exact dinode_setDinode_same fs1 ip.inum hfits
    · intro _ _
      exact dinode_setDinode_same fs1 ip.inum hfits
  · rw [if_neg hgrow] at h
    cases h
    have hmaxsize : max ip.size (off + n) = ip.size := by omega
    refine ⟨{ hw.toWorks with
      inode := ?_, ptr := hw.ptr, inside := hw.inside, outside := hw.outside, rest := hw.rest
      balance := fun S hS => hw.balance S (hpath S hS), logs := fun c hc => ?_
      own := .inl (hw.own hino), disk := ?_ }, rfl⟩
    · rw [hmaxsize]
      exact hip1
    · rcases hlogs c hc with hc | hc | ⟨l, hl, hc, -⟩
      · exact .inr (.inl hc)
      · exact .inr (.inr (.inl hc))
      · exact .inr (.inr (.inr ⟨l, hl, hc⟩))
    · intro hd hdisk
      -- no block was missing, so the inode is as it was
      have hsame := hw.same fun i _ hi => hd.ptr_div (by omega)
      rw [hw.own hino, hdisk, hsame]

/-- A call of `writei` that returns has written all its bytes or changed nothing. -/
theorem writei_cases (hs : Sound fs) (ho : Owned fs I) (hI : I ip.inum = some ip.toDinode)
    (hino : ip.inum < fs.sb.ninodes) (hoff : off < 2 ^ 32) (hn : n < 2 ^ 32) {r : Int}
    (h : fs.writei ip src off n = .ok (fs', ip', r)) :
    fs' = fs ∧ ip' = ip ∨
      ip.type ≠ T_DEV ∧ off ≤ ip.size ∧ off + n ≤ MAXFILE * BSIZE ∧ r = n ∧
        Wrote ip.inum src off n fs I ip fs' ip' := by
  have hcall := h
  unfold writei at h
  by_cases hdev : ip.type = T_DEV
  · rw [if_pos hdev] at h
    left
    split at h
    · cases h
      exact ⟨rfl, rfl⟩
    · split at h <;> (cases h; exact ⟨rfl, rfl⟩)
  · rw [if_neg hdev] at h
    by_cases hbad : off > ip.size ∨ uint (off + n) < off
    · rw [if_pos hbad] at h
      cases h
      exact .inl ⟨rfl, rfl⟩
    · rw [if_neg hbad] at h
      have hsum : uint (off + n) = off + n := by
        unfold uint at hbad ⊢
        omega
      by_cases hmax : uint (off + n) > MAXFILE * BSIZE
      · rw [if_pos hmax] at h
        cases h
        exact .inl ⟨rfl, rfl⟩
      · rw [hsum] at hmax
        obtain ⟨hw, hr⟩ := writei_wrote hs ho hI hino hdev (by omega) (by omega) hcall
        exact .inr ⟨hdev, by omega, by omega, hr, hw⟩

/-- `writei` succeeds as long as there are as many free blocks as block numbers
missing on the way to the bytes it writes. -/
theorem writei_ok (hs : Sound fs) (ho : Owned fs I) (hI : I ip.inum = some ip.toDinode)
    (hdev : ip.type ≠ T_DEV) (hoff : off ≤ ip.size) (hmax : off + n ≤ MAXFILE * BSIZE)
    (hroom : fs.lack I ip.inum (touched off n) ≤ fs.free) (src : Bytes) :
    ∃ fs' ip' r, fs.writei ip src off n = .ok (fs', ip', r) := by
  have hsum : uint (off + n) = off + n :=
    Nat.mod_eq_of_lt (Nat.lt_of_le_of_lt hmax (by decide))
  have hS : ∀ i, 0 ≤ i → i < n → path ((off + i) / BSIZE) ⊆ touched off n := fun i _ hi _ hl =>
    mem_touched.mpr ⟨i, hi, hl⟩
  obtain ⟨⟨fs1, ip1, off'⟩, hloop⟩ := writeLoop_ok hs ho hI src n hmax hS hroom
  rw [Nat.add_zero] at hloop
  unfold writei
  rw [if_neg hdev, hsum, if_neg (by omega), if_neg (by omega), hloop, ok_bind]
  simp only
  split
  · exact ⟨_, _, _, rfl⟩
  · exact ⟨_, _, _, rfl⟩

section

variable (h : Wrote ino src off n fs I ip fs' ip')
include h

theorem Wrote.size : ip'.size = max ip.size (off + n) := by
  rw [h.inode]

theorem Wrote.dense (hI : I ino = some ip.toDinode) (hd : Dense fs ip.toDinode)
    (hoff : off ≤ ip.size) (hmax : off + n ≤ MAXFILE * BSIZE) : Dense fs' ip'.toDinode where
  size := by
    have hsize := hd.size
    rw [h.size]
    omega
  ptr bn hbn := by
    rw [h.size] at hbn
    by_cases hold : bn * BSIZE < ip.size
    · exact h.ptr_ne_zero hI (table_self I ino ip') (hd.ptr bn hold)
    · have hnew := h.ptr (bn * BSIZE) (by omega) (by omega)
      rwa [Nat.mul_div_cancel bn (by decide : 0 < BSIZE)] at hnew

theorem Wrote.content_splice (hoff : off ≤ ip.size) (hsize : ip.size ≤ MAXFILE * BSIZE) :
    fs'.content ip'.toDinode = splice (fs.content ip.toDinode) off src n := by
  have hlen := length_content fs ip.toDinode
  have hoff' : off ≤ (fs.content ip.toDinode).length := by rwa [hlen]
  refine List.ext_getElem ?_ fun i hi hi' => ?_
  · rw [length_content, length_splice src n hoff', hlen, h.size]
  · have hi1 : i < ip'.size := by rwa [length_content] at hi
    rw [← List.getD_eq_getElem _ 0 hi, ← List.getD_eq_getElem _ 0 hi', getD_content fs' _ hi1,
      getD_splice src n hoff']
    rw [h.size] at hi1
    by_cases hin : off ≤ i ∧ i < off + n
    · rw [if_pos hin, h.inside i hin.1 hin.2]
    · rw [if_neg hin, h.outside i (by omega) hin, getD_content fs _ (by omega)]

end

/-! ## The log -/

/-- A file of 10 bytes in block 34. -/
def smallFile : Inode where
  type := T_FILE
  major := 0
  minor := 0
  nlink := 1
  size := 10
  addrs := fun i => if i = 0 then 34 else 0
  dev := ROOTDEV
  inum := 1
  ref := 1
  locked := true
  valid := true

/-- A disk of 100 blocks with the given file and free map; the log has the blocks 2
to 31. -/
def oneFile (f : Inode) (map : Bytes) : Disk where
  block b :=
    if b = 1 then putWord (putWord (putWord (putWord (putWord (putWord (putWord (fun _ => 0)
      0 100) 1 66) 2 8) 3 LOGSIZE) 4 2) 5 32) 6 33
    else if b = 32 then putDinode (fun _ => 0) 64 f.toDinode
    else if b = 33 then map
    else if b = 34 then fun i => UInt8.ofNat i
    else fun _ => 0
  sb := { size := 100, nblocks := 66, ninodes := 8, nlog := LOGSIZE, logstart := 2, inodestart := 32,
          bmapstart := 33 }
  devsw _ := { read := none, write := none }
  logged := []

/-- The map in which the blocks from 35 on are free. -/
def smallMap : Bytes := fun i => if i < 4 then 0xff else if i = 4 then 7 else 0

def smallDisk : Disk := oneFile smallFile smallMap

theorem smallDisk_sound : Sound smallDisk where
  layout := ⟨by decide, by decide, by decide, by decide, by decide⟩
  readsb := by decide +kernel
  reserved := by decide +kernel

/-- The table with the one file. -/
def oneTable (f : Inode) : Table := update (fun _ => none) 1 (some f.toDinode)

section

variable {f : Inode} (hf : f.addrs = smallFile.addrs)
include hf

theorem held_oneTable (fs : Disk) (x : Place) :
    fs.held (oneTable f) x = if x = (1, .top 0) then 34 else 0 := by
  obtain ⟨m, l⟩ := x
  by_cases hm : m = 1
  · subst hm
    have htable : oneTable f 1 = some f.toDinode := update_self ..
    rw [held_of_some htable]
    cases l <;> simp [ptr, hf, smallFile]
  · rw [held_of_none (by simp [oneTable, hm]), if_neg (by simp [hm])]

theorem owned_oneTable (harea : InData fs.sb 34) (hused : 34 ∈ fs.used) :
    Owned fs (oneTable f) where
  mem_area x hx := by
    rw [held_oneTable hf] at hx ⊢
    rwa [if_pos (by simpa using hx)]
  mem_used x hx := by
    rw [held_oneTable hf] at hx ⊢
    rwa [if_pos (by simpa using hx)]
  inj x y hx hxy := by
    rw [held_oneTable hf] at hx hxy
    rw [if_pos (by simpa using hx), held_oneTable hf] at hxy
    have hy : y = (1, .top 0) := by
      by_contra hne
      rw [if_neg hne] at hxy
      contradiction
    rw [hy]
    simpa using hx

end

theorem smallDisk_owned : Owned smallDisk (oneTable smallFile) :=
  owned_oneTable rfl (by decide) ⟨by decide, by decide +kernel⟩

theorem card_touched_le {off n k : Nat} (h : off + n ≤ k * BSIZE) :
    (touched off n).card ≤ ((Finset.range k).biUnion path).card := by
  refine Finset.card_le_card fun l hl => ?_
  obtain ⟨i, hi, hl⟩ := mem_touched.mp hl
  refine Finset.mem_biUnion.mpr ⟨(off + i) / BSIZE, Finset.mem_range.mpr ?_, hl⟩
  simp only [BSIZE] at h ⊢
  omega

theorem smallDisk_room {off n k : Nat} (h : off + n ≤ k * BSIZE)
    (hk : ((Finset.range k).biUnion path).card ≤ 65) :
    smallDisk.lack (oneTable smallFile) 1 (touched off n) ≤ smallDisk.free := calc
  _ ≤ (touched off n).card := Finset.card_filter_le _ _
  _ ≤ 65 := (card_touched_le h).trans hk
  _ ≤ smallDisk.free := by decide +kernel

end Disk
end Fs
end Xv6

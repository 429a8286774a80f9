import Xv6.Fs.Blocks

/-!
# Xv6.Fs.Tree

The block numbers of an inode as a tree: those in the inode itself, and those
in its indirect, double-indirect and second-level blocks.  A table says which
inodes there are; allocating a block for an empty place changes what that place
holds and nothing else.
-/

namespace Xv6

open Lib Function

namespace Fs

/-! ## Places -/

/-- The places where an inode has block numbers. -/
inductive Loc where
  /-- `ip->addrs[i]` -/
  | top (i : Fin (NDIRECT + 2))
  /-- an entry of the indirect block -/
  | ind (j : Fin NINDIRECT)
  /-- an entry of the double-indirect block -/
  | second (j : Fin NINDIRECT)
  /-- an entry of a second-level block -/
  | leaf (j k : Fin NINDIRECT)
  deriving DecidableEq

namespace Loc

abbrev indirect : Loc := .top ⟨NDIRECT, indirect_lt⟩
abbrev double : Loc := .top ⟨NDIRECT + 1, double_lt⟩

/-- The place of the index block that a place is in, and its index there. -/
def up : Loc → Option (Loc × Fin NINDIRECT)
  | .top _ => none
  | .ind j => some (indirect, j)
  | .second j => some (double, j)
  | .leaf j k => some (.second j, k)

theorem upInduction {P : Loc → Prop} (htop : ∀ i, P (.top i))
    (hup : ∀ l p j, l.up = some (p, j) → P p → P l) (l : Loc) : P l := by
  have hsecond : ∀ j, P (.second j) := fun j => hup _ _ j rfl (htop _)
  cases l with
  | top i => exact htop i
  | ind j => exact hup _ _ j rfl (htop _)
  | second j => exact hsecond j
  | leaf j k => exact hup _ _ k rfl (hsecond j)

variable {j : Fin NINDIRECT}

theorem up_injective {l l' p : Loc} (h : l.up = some (p, j))
    (h' : l'.up = some (p, j)) : l = l' := by
  cases l <;> cases l' <;> grind [up]

theorem up_ne {l p : Loc} (h : l.up = some (p, j)) : p ≠ l := by
  cases l <;> grind [up]

/-- The places of the blocks with the content of the file. -/
def Data : Loc → Prop
  | .top i => i < NDIRECT
  | .ind _ | .leaf _ _ => True
  | .second _ => False

instance : DecidablePred Data
  | .top i => inferInstanceAs (Decidable (i.val < NDIRECT))
  | .ind _ | .leaf _ _ => inferInstanceAs (Decidable True)
  | .second _ => inferInstanceAs (Decidable False)

theorem not_data_of_up {l p : Loc} (h : l.up = some (p, j)) : ¬ p.Data := by
  cases l with
  | top i => contradiction
  | ind j =>
    cases h
    simp [Data]
  | second j =>
    cases h
    simp [Data]
  | leaf j k =>
    cases h
    exact id

end Loc

namespace Disk

/-- Entry `j` of the index block `b`, if there is one. -/
def sub (fs : Disk) (b : Nat) (j : Fin NINDIRECT) : Nat :=
  if b = 0 then 0 else getWord (fs.block b) j

/-- The block number at a place, 0 if there is none. -/
def ptr (fs : Disk) (d : Dinode) : Loc → Nat
  | .top i => d.addrs i
  | .ind j => fs.sub (d.addrs ⟨NDIRECT, indirect_lt⟩) j
  | .second j => fs.sub (d.addrs ⟨NDIRECT + 1, double_lt⟩) j
  | .leaf j k => fs.sub (fs.sub (d.addrs ⟨NDIRECT + 1, double_lt⟩) j) k

variable {fs fs' : Disk} {d d' : Dinode}

@[simp] theorem sub_zero (fs : Disk) (j : Fin NINDIRECT) : fs.sub 0 j = 0 := if_pos rfl

theorem sub_of_ne (fs : Disk) {b : Nat} (h : b ≠ 0) (j : Fin NINDIRECT) :
    fs.sub b j = getWord (fs.block b) j :=
  if_neg h

theorem ptr_of_up {l p : Loc} {j : Fin NINDIRECT} (h : l.up = some (p, j)) :
    fs.ptr d l = fs.sub (fs.ptr d p) j := by
  cases l with
  | top i => contradiction
  | ind j => cases h; rfl
  | second j => cases h; rfl
  | leaf j k => cases h; rfl

/-- The block numbers depend on the inode and on its index blocks only. -/
theorem ptr_congr (haddrs : d'.addrs = d.addrs)
    (hword : ∀ (l p : Loc) (j : Fin NINDIRECT), l.up = some (p, j) → fs.ptr d p ≠ 0 →
      getWord (fs'.block (fs.ptr d p)) j = getWord (fs.block (fs.ptr d p)) j) :
    fs'.ptr d' = fs.ptr d := by
  funext l
  induction l using Loc.upInduction with
  | htop i => exact congrFun haddrs i
  | hup l p j h ih =>
    rw [ptr_of_up h, ptr_of_up h, ih]
    by_cases hp : fs.ptr d p = 0
    · rw [hp, sub_zero, sub_zero]
    · rw [sub_of_ne fs' hp, sub_of_ne fs hp, hword l p j h hp]

/-- A zeroed block comes to the empty place `l0`. -/
theorem ptr_grow {l0 : Loc} {b : Nat} (hempty : fs.ptr d l0 = 0) (hb : b ≠ 0)
    (hzero : fs'.block b = fun _ => 0)
    (htop : ∀ i, .top i ≠ l0 → d'.addrs i = d.addrs i)
    (hword : ∀ (l p : Loc) (j : Fin NINDIRECT), l.up = some (p, j) → l ≠ l0 → fs.ptr d p ≠ 0 →
      getWord (fs'.block (fs.ptr d p)) j = getWord (fs.block (fs.ptr d p)) j)
    (hnewTop : ∀ i, l0 = .top i → d'.addrs i = b)
    (hnewWord : ∀ (p : Loc) (j : Fin NINDIRECT), l0.up = some (p, j) →
      fs.ptr d p ≠ 0 ∧ getWord (fs'.block (fs.ptr d p)) j = b) :
    fs'.ptr d' = update (fs.ptr d) l0 b := by
  funext l
  induction l using Loc.upInduction with
  | htop i =>
    by_cases hi : l0 = .top i
    · rw [← hi, update_self]
      rw [hi]
      exact hnewTop i hi
    · rw [update_of_ne (Ne.symm hi)]
      exact htop i (Ne.symm hi)
  | hup l p j h ih =>
    rw [ptr_of_up h, ih]
    by_cases hp : p = l0
    · -- below the new block there is nothing yet
      have hl : l ≠ l0 := fun hl => Loc.up_ne h (hp.trans hl.symm)
      have hword0 : getWord (fun _ => 0) j = 0 := by simp [getWord, getLE]
      rw [hp, update_self, sub_of_ne fs' hb, hzero, hword0, update_of_ne hl,
        ptr_of_up h, hp, hempty, sub_zero]
    · rw [update_of_ne hp]
      by_cases hl : l = l0
      · obtain ⟨hne, hnew⟩ := hnewWord p j (hl ▸ h)
        rw [sub_of_ne fs' hne, hnew, hl, update_self]
      rw [update_of_ne hl, ptr_of_up h]
      by_cases hzero : fs.ptr d p = 0
      · rw [hzero, sub_zero, sub_zero]
      · rw [sub_of_ne fs' hzero, sub_of_ne fs hzero, hword l p j h hl hzero]

end Disk

/-! ## Tables of inodes -/

/-- The inodes that are allocated. -/
abbrev Table := Nat → Option Dinode

/-- A place in the file system: an inode number and a place of that inode. -/
abbrev Place := Nat × Loc

namespace Disk

/-- The block number at a place. -/
def held (fs : Disk) (I : Table) (x : Place) : Nat :=
  match I x.1 with
  | none => 0
  | some d => fs.ptr d x.2

/-- The blocks in use. -/
def used (fs : Disk) : Set Nat := { b | b < fs.sb.size ∧ fs.marked b = true }

/-- Every block number in the file system names a block of the data area that
is in use, and stands in one place only. -/
abbrev Owned (fs : Disk) (I : Table) : Prop := Owns 0 { b | InData fs.sb b } fs.used (fs.held I)

/-- Every block of the data area that is in use has its number somewhere. -/
abbrev Covered (fs : Disk) (I : Table) : Prop :=
  Covers { b | InData fs.sb b } fs.used (fs.held I)

variable {fs fs' fs1 : Disk} {I I' I1 : Table} {n : Nat} {d d' : Dinode} {l : Loc} {b : Nat}

theorem held_of_some (h : I n = some d) (l : Loc) : fs.held I (n, l) = fs.ptr d l := by
  simp only [held, h]

theorem held_of_none (h : I n = none) (l : Loc) : fs.held I (n, l) = 0 := by
  simp only [held, h]

/-- One inode has a new block number, the others have the same as before. -/
theorem held_update (hI : I n = some d) (hnew : fs'.ptr d' = update (fs.ptr d) l b)
    (hother : ∀ m dm, m ≠ n → I m = some dm → fs'.ptr dm = fs.ptr dm) :
    fs'.held (update I n (some d')) = update (fs.held I) (n, l) b := by
  funext ⟨m, l'⟩
  by_cases hm : m = n
  · subst hm
    rw [held_of_some (update_self ..), hnew]
    by_cases hl : l' = l
    · rw [hl, update_self, update_self]
    · have hne : (m, l') ≠ (m, l) := fun h => hl (congrArg Prod.snd h)
      rw [update_of_ne hl, update_of_ne hne, held_of_some hI]
  · have hne : (m, l') ≠ (n, l) := fun h => hm (congrArg Prod.fst h)
    rw [update_of_ne hne]
    simp only [held, update_of_ne hm]
    cases hIm : I m with
    | none => rfl
    | some dm => simp only [hother m dm hm hIm]

/-- No write outside the index blocks of an inode changes its block numbers. -/
theorem ptr_eq_of_blocks (hI : I n = some d)
    (h : ∀ p, fs.held I (n, p) ≠ 0 → ¬ p.Data →
      fs'.block (fs.held I (n, p)) = fs.block (fs.held I (n, p))) : fs'.ptr d = fs.ptr d :=
  ptr_congr rfl fun l p j hup hp => by
    have hb := h p (by rwa [held_of_some hI]) (Loc.not_data_of_up hup)
    rw [held_of_some hI] at hb
    rw [hb]

theorem held_eq_of_blocks (h : ∀ x : Place, fs.held I x ≠ 0 → ¬ x.2.Data →
    fs'.block (fs.held I x) = fs.block (fs.held I x)) : fs'.held I = fs.held I := by
  funext ⟨m, l⟩
  cases hI : I m with
  | none => rw [held_of_none hI, held_of_none hI]
  | some dm =>
    rw [held_of_some hI, held_of_some hI, ptr_eq_of_blocks hI fun p hp hd => h (m, p) hp hd]

/-! ## Growing -/

/-- The block `b`, which was free, comes to the empty place `l` of inode `n`. -/
structure Grows (n : Nat) (l : Loc) (b : Nat) (fs : Disk) (I : Table) (fs' : Disk) (I' : Table) :
    Prop extends Marks fs b fs' where
  empty : fs.held I (n, l) = 0
  held : fs'.held I' = update (fs.held I) (n, l) b
  other : ∀ m, m ≠ n → I' m = I m
  zero : fs'.block b = fun _ => 0
  block : ∀ x : Place, x.2.Data → fs.held I x ≠ 0 → fs'.block (fs.held I x) = fs.block (fs.held I x)

theorem held_ne_of_free (ho : Owned fs I) (hb : fs.marked b = false) {x : Place}
    (hx : fs.held I x ≠ 0) : fs.held I x ≠ b :=
  ho.ne_of_not_mem (by simp [used, hb]) hx

theorem Takes.block_held (h : Takes fs b fs') (ho : Owned fs I) {x : Place} (hx : fs.held I x ≠ 0) :
    fs'.block (fs.held I x) = fs.block (fs.held I x) :=
  h.block _ (ho.mem_area x hx) (held_ne_of_free ho h.free hx)

theorem Takes.growsTop (h : Takes fs b fs') (hs : Sound fs) (ho : Owned fs I) (hI : I n = some d)
    {i : Fin (NDIRECT + 2)} (hempty : d.addrs i = 0) (hd' : d'.addrs = update d.addrs i b) :
    Grows n (.top i) b fs I fs' (update I n (some d')) := by
  have hptr : fs'.ptr d' = update (fs.ptr d) (.top i) b := by
    refine ptr_grow hempty (hs.layout.data_ne_zero h.data) h.zero (fun k hk => ?_)
      (fun l p j _ _ hp => ?_) (fun k hk => ?_) fun p j hup => by contradiction
    · rw [hd', update_of_ne fun hki => hk (congrArg Loc.top hki)]
    · have hb := h.block_held ho (x := (n, p)) (by rwa [held_of_some hI])
      rw [held_of_some hI] at hb
      rw [hb]
    · cases hk
      rw [hd', update_self]
  refine ⟨h.toMarks, (held_of_some hI _).trans hempty, ?_,
    fun m hm => update_of_ne hm .., h.zero, fun x _ hx => h.block_held ho hx⟩
  exact held_update hI hptr fun m dm _ hIm =>
    ptr_eq_of_blocks hIm fun p hp _ => h.block_held ho hp

/-- The new block number goes into an index block. -/
theorem Takes.growsWord (h : Takes fs b fs1) (hs : Sound fs) (ho : Owned fs I) (hI : I n = some d)
    {p : Loc} {j : Fin NINDIRECT} (hup : l.up = some (p, j)) (hp : fs.ptr d p ≠ 0)
    (hempty : fs.ptr d l = 0) (hd' : d'.addrs = d.addrs) :
    Grows n l b fs I (fs1.logWrite (fs.ptr d p) (putWord (fs1.block (fs.ptr d p)) j b))
      (update I n (some d')) := by
  have hheld : fs.held I (n, p) = fs.ptr d p := held_of_some hI p
  have hdata : InData fs.sb (fs.ptr d p) := by
    rw [← hheld]
    exact ho.mem_area _ (by rwa [hheld])
  have hdata1 : InData fs1.sb (fs.ptr d p) := by rwa [h.same.sb]
  have hne : fs.ptr d p ≠ b := by
    rw [← hheld]
    exact held_ne_of_free ho h.free (by rwa [hheld])
  have hl1 := h.same.layout hs.layout
  -- only the index block changes after the allocation
  have hblock : ∀ x, fs.held I x ≠ 0 → x ≠ (n, p) →
      (fs1.logWrite (fs.ptr d p) (putWord (fs1.block (fs.ptr d p)) j b)).block (fs.held I x) =
        fs.block (fs.held I x) := fun x hx hxp => by
    have hxa : fs.held I x ≠ fs.ptr d p :=
      fun heq => hxp (ho.inj x (n, p) hx (heq.trans hheld.symm))
    rw [block_logWrite_of_ne _ _ hxa, h.block_held ho hx]
  have hindex : fs1.block (fs.ptr d p) = fs.block (fs.ptr d p) := h.block _ hdata hne
  have hptr : (fs1.logWrite (fs.ptr d p) (putWord (fs1.block (fs.ptr d p)) j b)).ptr d' =
      update (fs.ptr d) l b := by
    refine ptr_grow hempty (hs.layout.data_ne_zero h.data) ?_ (fun i _ => congrFun hd' i)
      (fun l' p' j' hup' hl' hp' => ?_) (fun i hi => ?_) fun p' j' hup' => ?_
    · rw [block_logWrite_of_ne _ _ (Ne.symm hne), h.zero]
    · by_cases hpp : p' = p
      · subst hpp
        have hj : (j' : Nat) ≠ j := fun hj => hl' (Loc.up_injective hup' (Fin.ext hj ▸ hup))
        rw [block_logWrite_same, getWord_putWord_of_ne _ _ hj, hindex]
      · have hb := hblock (n, p') (by rwa [held_of_some hI]) fun heq => hpp (congrArg Prod.snd heq)
        rw [held_of_some hI] at hb
        rw [hb]
    · rw [hi] at hup
      contradiction
    · rw [hup] at hup'
      cases hup'
      rw [block_logWrite_same]
      exact ⟨hp, getWord_putWord _ _ (Nat.lt_trans h.data.2 hs.layout.size)⟩
  refine ⟨⟨h.data, h.free, h.same.trans (sameMeta_logWrite hl1 hdata1 _), fun c hc => ?_⟩,
    (held_of_some hI l).trans hempty, ?_, fun m hm => update_of_ne hm .., ?_,
    fun x hx hxn => hblock x hxn fun heq => ?_⟩
  · rw [marked_logWrite hl1 hdata1 (by rwa [h.same.sb]), h.marked c hc]
  · refine held_update hI hptr fun m dm hm hIm => ptr_eq_of_blocks hIm fun q hq _ => ?_
    exact hblock (m, q) hq fun heq => hm (congrArg Prod.fst heq)
  · rw [block_logWrite_of_ne _ _ (Ne.symm hne), h.zero]
  · rw [heq] at hx
    exact Loc.not_data_of_up hup hx

/-! ## Extensions -/

/-- Inode `n` may have new blocks, which are zero; nothing else has changed in
the content of the file system. -/
structure Extends (n : Nat) (fs : Disk) (I : Table) (fs' : Disk) (I' : Table) : Prop where
  same : SameMeta fs fs'
  sound : Sound fs'
  owned : Owned fs' I'
  covered : Covered fs I → Covered fs' I'
  other : ∀ m, m ≠ n → I' m = I m
  frame : ∀ x : Place, x.1 ≠ n → fs'.held I' x = fs.held I x
  kept : ∀ x, fs.held I x ≠ 0 → fs'.held I' x = fs.held I x
  block : ∀ x : Place, x.2.Data → fs.held I x ≠ 0 → fs'.block (fs.held I x) = fs.block (fs.held I x)
  fresh : ∀ x : Place, x.2.Data → fs.held I x = 0 → fs'.held I' x ≠ 0 →
    fs'.block (fs'.held I' x) = fun _ => 0
  gains : Gains 0 fs.used (fs.held I) fs'.used (fs'.held I')

theorem Extends.refl (n : Nat) (hs : Sound fs) (ho : Owned fs I) : Extends n fs I fs I :=
  ⟨.refl fs, hs, ho, id, fun _ _ => rfl, fun _ _ => rfl, fun _ _ => rfl, fun _ _ _ => rfl,
    fun _ _ h h' => absurd h h', .refl ..⟩

theorem Extends.trans {fs2 : Disk} {I2 : Table} (h1 : Extends n fs I fs1 I1)
    (h2 : Extends n fs1 I1 fs2 I2) : Extends n fs I fs2 I2 where
  same := h1.same.trans h2.same
  sound := h2.sound
  owned := h2.owned
  covered := h2.covered ∘ h1.covered
  other m hm := (h2.other m hm).trans (h1.other m hm)
  frame x hx := (h2.frame x hx).trans (h1.frame x hx)
  kept x hx := by
    have hx1 := h1.kept x hx
    rw [h2.kept x (by rwa [hx1]), hx1]
  block x hd hx := by
    have hx1 := h1.kept x hx
    have hb2 := h2.block x hd (by rwa [hx1])
    rw [hx1] at hb2
    rw [hb2, h1.block x hd hx]
  fresh x hd hx hx2 := by
    by_cases hx1 : fs1.held I1 x = 0
    · exact h2.fresh x hd hx1 hx2
    · rw [h2.kept x hx1, h2.block x hd hx1, h1.fresh x hd hx hx1]
  gains := h1.gains.trans h2.gains h1.kept h2.kept

theorem Marks.used_eq (h : Marks fs b fs') : fs'.used = insert b fs.used := by
  ext c
  simp only [used, Set.mem_ofPred_eq, Set.mem_insert_iff, h.same.sb]
  by_cases hcb : c = b
  · subst hcb
    simp [h.data.2, h.marked c h.data.2]
  have hne : ¬ b = c := fun heq => hcb heq.symm
  constructor
  · rintro ⟨hlt, hc⟩
    rw [h.marked c hlt, decide_eq_false hne, Bool.or_false] at hc
    exact .inr ⟨hlt, hc⟩
  · rintro (heq | ⟨hlt, hc⟩)
    · exact absurd heq hcb
    · rw [h.marked c hlt, hc, Bool.true_or]
      exact ⟨hlt, rfl⟩

theorem Grows.extends (h : Grows n l b fs I fs' I') (hs : Sound fs) (ho : Owned fs I) :
    Extends n fs I fs' I' where
  same := h.same
  sound := h.sound hs
  owned := by
    rw [Owned, h.held, h.used_eq, h.same.sb]
    exact ho.take (by simp [used, h.free]) h.data
  covered hc := by
    rw [Covered, h.held, h.used_eq, h.same.sb]
    refine hc.take ?_
    rw [h.empty]
    exact fun hzero => hs.layout.data_ne_zero hzero rfl
  other := h.other
  frame x hx := by
    rw [h.held, update_of_ne fun heq => hx (congrArg Prod.fst heq)]
  kept x hx := by
    have hne : x ≠ (n, l) := fun heq => hx (heq ▸ h.empty)
    rw [h.held, update_of_ne hne]
  block := h.block
  fresh x _ hx hx' := by
    by_cases heq : x = (n, l)
    · rw [h.held, heq, update_self]
      exact h.zero
    · rw [h.held, update_of_ne heq] at hx'
      exact absurd hx hx'
  gains := by
    rw [h.held, h.used_eq]
    exact .take h.empty (by simp [used, h.free]) (hs.layout.data_ne_zero h.data)

end Disk
end Fs
end Xv6

import Xv6.Fs.Tree

/-!
# Xv6.Fs.Bmap

`bmap`: each of the up to three block numbers on the way to a block of the file
is looked up, and allocated if it is 0.  Whatever `bmap` allocates is new and
zero, and it succeeds as long as there are as many free blocks as block numbers
missing.
-/

namespace Xv6

open Lib Function Finset

namespace Fs

variable {j : Fin NINDIRECT} {S : Finset Loc} {p : Loc} {bn : Nat}

/-! ## The place of a block of the file -/

/-- An index into an index block. -/
def entry (j : Nat) : Fin NINDIRECT := ⟨j % NINDIRECT, Nat.mod_lt _ (by decide)⟩

/-- The place of block `bn` of a file. -/
def locOf (bn : Nat) : Loc :=
  if h : bn < NDIRECT then .top ⟨bn, direct_lt h⟩
  else if h : bn - NDIRECT < NINDIRECT then .ind ⟨bn - NDIRECT, h⟩
  else .leaf (entry ((bn - NDIRECT - NINDIRECT) / NINDIRECT)) (entry (bn - NDIRECT - NINDIRECT))

/-- The places on the way from the inode to block `bn` of a file. -/
def path (bn : Nat) : Finset Loc :=
  match locOf bn with
  | .top i => {.top i}
  | .ind j => {Loc.indirect, .ind j}
  | .second j => {Loc.double, .second j}
  | .leaf j k => {Loc.double, .second j, .leaf j k}

theorem locOf_mem_path (bn : Nat) : locOf bn ∈ path bn := by
  unfold path
  cases locOf bn <;> simp

/-- On the way to a block are the places on the way to each of them. -/
theorem up_mem_path {l : Loc} (hl : l ∈ path bn) (hup : l.up = some (p, j)) : p ∈ path bn := by
  unfold path at hl ⊢
  cases hloc : locOf bn <;> simp only [hloc, mem_insert, mem_singleton] at hl ⊢
  all_goals rcases hl with rfl | rfl | rfl <;> cases hup <;> simp

theorem locOf_data (bn : Nat) : (locOf bn).Data := by
  unfold locOf
  split
  · next h => exact h
  · split
    · trivial
    · trivial

theorem locOf_direct (h : bn < NDIRECT) : locOf bn = .top ⟨bn, direct_lt h⟩ := dif_pos h

theorem locOf_indirect (h : ¬ bn < NDIRECT) (h' : bn - NDIRECT < NINDIRECT) :
    locOf bn = .ind ⟨bn - NDIRECT, h'⟩ := by
  rw [locOf, dif_neg h, dif_pos h']

theorem locOf_double (h : ¬ bn < NDIRECT) (h' : ¬ bn - NDIRECT < NINDIRECT) :
    locOf bn = .leaf (entry ((bn - NDIRECT - NINDIRECT) / NINDIRECT))
      (entry (bn - NDIRECT - NINDIRECT)) := by
  rw [locOf, dif_neg h, dif_neg h']

theorem locOf_injective {bn' : Nat} (h : bn < MAXFILE) (h' : bn' < MAXFILE)
    (heq : locOf bn = locOf bn') : bn = bn' := by
  simp only [MAXFILE, NDBINDIRECT, BSIZE] at h h'
  by_cases hd : bn < NDIRECT
  · rw [locOf_direct hd] at heq
    by_cases hd' : bn' < NDIRECT
    · rw [locOf_direct hd'] at heq
      simpa using heq
    by_cases hi' : bn' - NDIRECT < NINDIRECT
    · rw [locOf_indirect hd' hi'] at heq
      contradiction
    · rw [locOf_double hd' hi'] at heq
      contradiction
  · by_cases hi : bn - NDIRECT < NINDIRECT
    · rw [locOf_indirect hd hi] at heq
      by_cases hd' : bn' < NDIRECT
      · rw [locOf_direct hd'] at heq
        contradiction
      by_cases hi' : bn' - NDIRECT < NINDIRECT
      · rw [locOf_indirect hd' hi'] at heq
        simp only [Loc.ind.injEq, Fin.mk.injEq] at heq
        omega
      · rw [locOf_double hd' hi'] at heq
        contradiction
    · rw [locOf_double hd hi] at heq
      by_cases hd' : bn' < NDIRECT
      · rw [locOf_direct hd'] at heq
        contradiction
      by_cases hi' : bn' - NDIRECT < NINDIRECT
      · rw [locOf_indirect hd' hi'] at heq
        contradiction
      rw [locOf_double hd' hi'] at heq
      simp only [Loc.leaf.injEq, entry, Fin.mk.injEq] at heq
      simp only [NDIRECT, NINDIRECT, BSIZE] at *
      omega

namespace Disk

variable {fs fs' fs1 : Disk} {I I' I1 : Table} {ino : Nat} {ip ip' : Inode} {l : Loc} {a b : Nat}

/-- The number of block numbers missing at the places in `S`. -/
def lack (fs : Disk) (I : Table) (ino : Nat) (S : Finset Loc) : Nat :=
  (S.filter fun l => fs.held I (ino, l) = 0).card

/-! ## The log -/

/-- The blocks of the free map. -/
def mapBlocks (sb : Superblock) : Finset Nat := (range (sb.size / BPB + 1)).image (· + sb.bmapstart)

/-- The calls of `log_write` are for blocks of the free map and for blocks at the
places in `S`, after those there have been. -/
def Logs (ino : Nat) (S : Finset Loc) (fs fs' : Disk) (I' : Table) : Prop :=
  ∀ c ∈ fs'.logged, c ∈ fs.logged ∨ c ∈ mapBlocks fs.sb ∨ ∃ l ∈ S, c = fs'.held I' (ino, l) ∧ c ≠ 0

theorem Logs.refl (ino : Nat) (S : Finset Loc) (fs : Disk) (I : Table) : Logs ino S fs fs I :=
  fun _ hc => .inl hc

theorem Logs.trans {S : Finset Loc} (h1 : Logs ino S fs fs1 I1) (h2 : Logs ino S fs1 fs' I')
    (hsb : fs1.sb = fs.sb)
    (hkept : ∀ x, fs1.held I1 x ≠ 0 → fs'.held I' x = fs1.held I1 x) : Logs ino S fs fs' I' := by
  intro c hc
  rcases h2 c hc with hc | hc | hc
  · rcases h1 c hc with hc | hc | ⟨l, hl, rfl, hne⟩
    · exact .inl hc
    · exact .inr (.inl hc)
    · exact .inr (.inr ⟨l, hl, (hkept _ hne).symm, hne⟩)
  · exact .inr (.inl (hsb ▸ hc))
  · exact .inr (.inr hc)

/-- With a place, the set has the places on the way to it. -/
def UpClosed (S : Finset Loc) : Prop := ∀ l ∈ S, ∀ p j, l.up = some (p, j) → p ∈ S

theorem balloc_logged (h : fs.balloc = .ok (fs', b)) :
    fs'.logged = b :: BBLOCK b fs.sb :: fs.logged ∧ BBLOCK b fs.sb ∈ mapBlocks fs.sb := by
  unfold balloc at h
  split at h
  · contradiction
  next hfind =>
  cases h
  have hlt : b < fs.sb.size := List.mem_range.mp (List.mem_of_find?_eq_some hfind)
  exact ⟨rfl, mem_image.mpr ⟨b / BPB, mem_range.mpr (Nat.lt_succ_of_le (Nat.div_le_div_right hlt.le)),
    rfl⟩⟩

/-! ## One block number -/

/-- The block number at `l` is `a`, and was allocated if there was none. -/
structure Reaches (ino : Nat) (l : Loc) (a : Nat) (fs : Disk) (I : Table) (fs' : Disk)
    (I' : Table) :
    Prop extends Extends ino fs I fs' I' where
  here : fs'.held I' (ino, l) = a
  ne_zero : a ≠ 0
  rest : ∀ l', l' ≠ l → fs'.held I' (ino, l') = fs.held I (ino, l')
  balance : ∀ S, l ∈ S → fs'.free + fs.lack I ino S = fs.free + fs'.lack I' ino S
  logs : ∀ S, l ∈ S → UpClosed S → Logs ino S fs fs' I'

theorem Reaches.room (h : Reaches ino l a fs I fs' I') (S : Finset Loc) (hS : l ∈ S)
    (hle : fs.lack I ino S ≤ fs.free) : fs'.lack I' ino S ≤ fs'.free := by
  have hbalance := h.balance S hS
  omega

theorem Reaches.of_held (hs : Sound fs) (ho : Owned fs I) (hl : fs.held I (ino, l) ≠ 0) :
    Reaches ino l (fs.held I (ino, l)) fs I fs I :=
  { Extends.refl ino hs ho with
    here := rfl
    ne_zero := hl
    rest := fun _ _ => rfl
    balance := fun _ _ => rfl
    logs := fun S _ _ => .refl ino S fs I }

theorem Grows.reaches (h : Grows ino l b fs I fs' I') (hs : Sound fs) (ho : Owned fs I)
    (hlogs : ∀ S, l ∈ S → UpClosed S → fs'.held I' (ino, l) = b → b ≠ 0 → Logs ino S fs fs' I') :
    Reaches ino l b fs I fs' I' :=
  { h.extends hs ho with
    logs := fun S hl hup =>
      hlogs S hl hup (by rw [h.held, update_self]) (hs.layout.data_ne_zero h.data)
    here := by rw [h.held, update_self]
    ne_zero := hs.layout.data_ne_zero h.data
    rest := fun l' hl' => by
      rw [h.held, update_of_ne fun heq => hl' (congrArg Prod.snd heq)]
    balance := fun S hS => by
      have hfree := h.free_eq
      have herase : (S.filter fun l' => fs'.held I' (ino, l') = 0) =
          (S.filter fun l' => fs.held I (ino, l') = 0).erase l := by
        ext l'
        simp only [mem_filter, mem_erase, h.held]
        by_cases hl' : l' = l
        · subst hl'
          simp [hs.layout.data_ne_zero h.data]
        · have hne : (ino, l') ≠ (ino, l) := fun heq => hl' (congrArg Prod.snd heq)
          rw [update_of_ne hne]
          simp [hl']
      have hmem : l ∈ S.filter fun l' => fs.held I (ino, l') = 0 :=
        mem_filter.mpr ⟨hS, h.empty⟩
      have hcard := card_erase_add_one hmem
      rw [lack, lack, herase]
      omega }

theorem balloc_of_room (hl : l ∈ S) (hempty : fs.held I (ino, l) = 0)
    (hroom : fs.lack I ino S ≤ fs.free) : ∃ fs' b, fs.balloc = .ok (fs', b) := by
  refine balloc_of_free (Nat.lt_of_lt_of_le ?_ hroom)
  exact card_pos.mpr ⟨l, mem_filter.mpr ⟨hl, hempty⟩⟩

theorem update_table (hI : I ino = some ip.toDinode) : update I ino (some ip.toDinode) = I := by
  rw [← hI, update_eq_self]

variable {i : Fin (NDIRECT + 2)}

theorem inodeEntry_reaches (hs : Sound fs) (ho : Owned fs I) (hI : I ino = some ip.toDinode)
    (h : fs.inodeEntry ip i = .ok (fs', ip', a)) :
    Reaches ino (.top i) a fs I fs' (update I ino (some ip'.toDinode)) ∧
      ip' = { ip with addrs := ip'.addrs } := by
  unfold inodeEntry at h
  split at h
  · next hempty =>
    obtain ⟨⟨fs1, b⟩, hb, h⟩ := bind_eq_ok.mp h
    cases h
    have haddrs : ({ ip.toDinode with addrs := update ip.addrs i a } : Dinode).addrs =
        update ip.addrs i a := rfl
    have hgrows := (takes_of_balloc hs hb).growsTop hs ho hI hempty haddrs
    obtain ⟨hlogged, hmap⟩ := balloc_logged hb
    refine ⟨hgrows.reaches hs ho fun S hl _ hheld hne c hc => ?_, rfl⟩
    rw [hlogged, List.mem_cons, List.mem_cons] at hc
    rcases hc with rfl | rfl | hc
    · exact .inr (.inr ⟨_, hl, hheld.symm, hne⟩)
    · exact .inr (.inl hmap)
    · exact .inl hc
  · next hne =>
    cases h
    have hheld : fs.held I (ino, .top i) = ip.addrs i := held_of_some hI _
    rw [update_table hI, ← hheld]
    exact ⟨.of_held hs ho (by rwa [hheld]), rfl⟩

theorem inodeEntry_ok (hI : I ino = some ip.toDinode)
    (hl : .top i ∈ S) (hroom : fs.lack I ino S ≤ fs.free) : ∃ r, fs.inodeEntry ip i = .ok r := by
  unfold inodeEntry
  split
  · next hempty =>
    obtain ⟨fs1, b, hb⟩ := balloc_of_room hl ((held_of_some hI _).trans hempty) hroom
    rw [hb]
    exact ⟨_, rfl⟩
  · exact ⟨_, rfl⟩

theorem indexEntry_reaches (hs : Sound fs) (ho : Owned fs I) (hI : I ino = some ip.toDinode)
    (hup : l.up = some (p, j)) (hp : fs.held I (ino, p) = b)
    (hb : b ≠ 0) (h : fs.indexEntry b j = .ok (fs', a)) :
    Reaches ino l a fs I fs' (update I ino (some ip.toDinode)) := by
  rw [held_of_some hI] at hp
  have hl : fs.held I (ino, l) = getWord (fs.block b) j := by
    rw [held_of_some hI, ptr_of_up hup, hp, sub_of_ne fs hb]
  unfold indexEntry at h
  split at h
  · next hempty =>
    obtain ⟨⟨fs1, c⟩, hc, h⟩ := bind_eq_ok.mp h
    cases h
    have haddrs : ip.toDinode.addrs = ip.toDinode.addrs := rfl
    have hgrows := (takes_of_balloc hs hc).growsWord hs ho hI hup (by rwa [hp])
      (by rw [← held_of_some hI, hl, hempty]) haddrs
    rw [hp] at hgrows
    obtain ⟨hlogged, hmap⟩ := balloc_logged hc
    have hgrown := hgrows.extends hs ho
    refine hgrows.reaches hs ho fun S hmem hclosed hheld hne e he => ?_
    change e ∈ b :: fs1.logged at he
    rw [hlogged, List.mem_cons, List.mem_cons, List.mem_cons] at he
    rcases he with rfl | rfl | rfl | he
    · have hpheld : fs.held I (ino, p) = e := (held_of_some hI p).trans hp
      exact .inr (.inr ⟨p, hclosed l hmem p j hup,
        by rw [hgrown.kept _ (by rwa [hpheld]), hpheld], hb⟩)
    · exact .inr (.inr ⟨l, hmem, hheld.symm, hne⟩)
    · exact .inr (.inl hmap)
    · exact .inl he
  · next hne =>
    cases h
    rw [update_table hI, ← hl]
    exact .of_held hs ho (by rwa [hl])

theorem indexEntry_ok (hI : I ino = some ip.toDinode) (hup : l.up = some (p, j))
    (hp : fs.held I (ino, p) = b) (hb : b ≠ 0)
    (hl : l ∈ S) (hroom : fs.lack I ino S ≤ fs.free) : ∃ r, fs.indexEntry b j = .ok r := by
  rw [held_of_some hI] at hp
  unfold indexEntry
  split
  · next hempty =>
    have hheld : fs.held I (ino, l) = 0 := by
      rw [held_of_some hI, ptr_of_up hup, hp, sub_of_ne fs hb, hempty]
    obtain ⟨fs1, c, hc⟩ := balloc_of_room hl hheld hroom
    rw [hc]
    exact ⟨_, rfl⟩
  · exact ⟨_, rfl⟩

/-! ## bmap -/

/-- The data block at `l` is `a`; it and the index blocks on the way to it, at
the places in `P`, were allocated if there were none. -/
structure Maps (ino : Nat) (l : Loc) (P : Finset Loc) (a : Nat) (fs : Disk) (I : Table) (fs' : Disk)
    (I' : Table) : Prop extends Extends ino fs I fs' I' where
  here : fs'.held I' (ino, l) = a
  ne_zero : a ≠ 0
  rest : ∀ l', l'.Data → l' ≠ l → fs'.held I' (ino, l') = fs.held I (ino, l')
  balance : ∀ S, P ⊆ S → fs'.free + fs.lack I ino S = fs.free + fs'.lack I' ino S
  logs : ∀ S, P ⊆ S → UpClosed S → Logs ino S fs fs' I'

theorem Maps.room {P : Finset Loc} (h : Maps ino l P a fs I fs' I') (S : Finset Loc) (hS : P ⊆ S)
    (hle : fs.lack I ino S ≤ fs.free) : fs'.lack I' ino S ≤ fs'.free := by
  have hbalance := h.balance S hS
  omega

theorem Reaches.maps (h : Reaches ino l a fs I fs' I') : Maps ino l {l} a fs I fs' I' :=
  { h with
    rest := fun l' _ hl' => h.rest l' hl'
    balance := fun S hS => h.balance S (singleton_subset_iff.mp hS)
    logs := fun S hS => h.logs S (singleton_subset_iff.mp hS) }

theorem Reaches.then_maps {P : Finset Loc} (hp : ¬ p.Data) (h1 : Reaches ino p b fs I fs1 I1)
    (h2 : Maps ino l P a fs1 I1 fs' I') : Maps ino l (insert p P) a fs I fs' I' :=
  { h1.toExtends.trans h2.toExtends with
    here := h2.here
    ne_zero := h2.ne_zero
    rest := fun l' hd hl' => by
      have hne : l' ≠ p := fun heq => hp (heq ▸ hd)
      rw [h2.rest l' hd hl', h1.rest l' hne]
    balance := fun S hS => by
      obtain ⟨hp, hP⟩ := insert_subset_iff.mp hS
      have hb1 := h1.balance S hp
      have hb2 := h2.balance S hP
      omega
    logs := fun S hS hup => by
      obtain ⟨hp, hP⟩ := insert_subset_iff.mp hS
      exact (h1.logs S hp hup).trans (h2.logs S hP hup) h1.same.sb h2.kept }

theorem path_direct (h : bn < NDIRECT) : path bn = {locOf bn} := by
  rw [path, locOf_direct h]

theorem path_indirect (h : ¬ bn < NDIRECT) (h' : bn - NDIRECT < NINDIRECT) :
    path bn = {Loc.indirect, locOf bn} := by
  rw [path, locOf_indirect h h']

theorem path_double (h : ¬ bn < NDIRECT) (h' : ¬ bn - NDIRECT < NINDIRECT) :
    path bn = {Loc.double, .second (entry ((bn - NDIRECT - NINDIRECT) / NINDIRECT)), locOf bn} := by
  rw [path, locOf_double h h']

theorem not_data_indirect : ¬ Loc.indirect.Data := by decide

theorem not_data_double : ¬ Loc.double.Data := by decide

theorem table_self (I : Table) (ino : Nat) (ip : Inode) :
    update I ino (some ip.toDinode) ino = some ip.toDinode :=
  update_self ..

theorem entry_div (h : bn - NDIRECT - NINDIRECT < NDBINDIRECT) :
    ((entry ((bn - NDIRECT - NINDIRECT) / NINDIRECT) : Fin NINDIRECT) : Nat) =
      (bn - NDIRECT - NINDIRECT) / NINDIRECT := by
  refine Nat.mod_eq_of_lt ?_
  simp only [NDBINDIRECT, NINDIRECT, BSIZE] at h ⊢
  omega

/-- **What `bmap` does.** -/
theorem bmap_maps (hs : Sound fs) (ho : Owned fs I) (hI : I ino = some ip.toDinode)
    (h : fs.bmap ip bn = .ok (fs', ip', a)) :
    Maps ino (locOf bn) (path bn) a fs I fs' (update I ino (some ip'.toDinode)) ∧
      ip' = { ip with addrs := ip'.addrs } := by
  unfold bmap at h
  split at h
  · next hd =>
    obtain ⟨hr, hip⟩ := inodeEntry_reaches hs ho hI h
    rw [path_direct hd, locOf_direct hd]
    exact ⟨hr.maps, hip⟩
  · next hd =>
    simp only at h
    split at h
    · next hi =>
      obtain ⟨⟨fs1, ip1, b⟩, h1, h⟩ := bind_eq_ok.mp h
      obtain ⟨⟨fs2, c⟩, h2, h⟩ := bind_eq_ok.mp h
      cases h
      obtain ⟨hr1, hip⟩ := inodeEntry_reaches hs ho hI h1
      have hr2 := indexEntry_reaches hr1.sound hr1.owned (table_self I ino ip1)
        (l := .ind ⟨bn - NDIRECT, hi⟩) rfl hr1.here hr1.ne_zero h2
      rw [update_idem] at hr2
      rw [path_indirect hd hi, locOf_indirect hd hi]
      exact ⟨hr1.then_maps not_data_indirect hr2.maps, hip⟩
    · next hi =>
      split at h
      · next hbound =>
        obtain ⟨⟨fs1, ip1, b⟩, h1, h⟩ := bind_eq_ok.mp h
        obtain ⟨⟨fs2, c⟩, h2, h⟩ := bind_eq_ok.mp h
        obtain ⟨⟨fs3, e⟩, h3, h⟩ := bind_eq_ok.mp h
        cases h
        obtain ⟨hr1, hip⟩ := inodeEntry_reaches hs ho hI h1
        rw [← entry_div hbound] at h2
        have hr2 := indexEntry_reaches hr1.sound hr1.owned (table_self I ino ip1)
          (l := .second (entry ((bn - NDIRECT - NINDIRECT) / NINDIRECT))) rfl hr1.here
          hr1.ne_zero h2
        rw [update_idem] at hr2
        have hr3 := indexEntry_reaches hr2.sound hr2.owned (table_self I ino ip1)
          (l := .leaf (entry ((bn - NDIRECT - NINDIRECT) / NINDIRECT))
            (entry (bn - NDIRECT - NINDIRECT))) rfl hr2.here hr2.ne_zero h3
        rw [update_idem] at hr3
        rw [path_double hd hi, locOf_double hd hi]
        exact ⟨hr1.then_maps not_data_double (hr2.then_maps id hr3.maps), hip⟩
      · contradiction

/-- `bmap` succeeds for every block of a file, as long as there are enough free
blocks. -/
theorem bmap_ok (hs : Sound fs) (ho : Owned fs I) (hI : I ino = some ip.toDinode)
    (hbn : bn < MAXFILE) (hS : path bn ⊆ S)
    (hroom : fs.lack I ino S ≤ fs.free) : ∃ fs' ip' a, fs.bmap ip bn = .ok (fs', ip', a) := by
  unfold bmap
  split
  · next hd =>
    rw [path_direct hd, locOf_direct hd, singleton_subset_iff] at hS
    obtain ⟨r, hr⟩ := inodeEntry_ok hI hS hroom
    exact ⟨_, _, _, hr⟩
  · next hd =>
    simp only
    split
    · next hi =>
      rw [path_indirect hd hi, locOf_indirect hd hi, insert_subset_iff,
        singleton_subset_iff] at hS
      obtain ⟨⟨fs1, ip1, b⟩, h1⟩ := inodeEntry_ok hI hS.1 hroom
      obtain ⟨hr1, -⟩ := inodeEntry_reaches hs ho hI h1
      obtain ⟨⟨fs2, c⟩, h2⟩ := indexEntry_ok (table_self I ino ip1) (j := ⟨bn - NDIRECT, hi⟩) rfl
        hr1.here hr1.ne_zero hS.2 (hr1.room S hS.1 hroom)
      exact ⟨fs2, ip1, c, by rw [h1, ok_bind, h2]; rfl⟩
    · next hi =>
      have hbound : bn - NDIRECT - NINDIRECT < NDBINDIRECT := by
        simp only [MAXFILE] at hbn
        omega
      rw [path_double hd hi, locOf_double hd hi, insert_subset_iff,
        insert_subset_iff, singleton_subset_iff] at hS
      obtain ⟨⟨fs1, ip1, b⟩, h1⟩ := inodeEntry_ok hI hS.1 hroom
      obtain ⟨hr1, -⟩ := inodeEntry_reaches hs ho hI h1
      have hroom1 := hr1.room S hS.1 hroom
      obtain ⟨⟨fs2, c⟩, h2⟩ := indexEntry_ok (table_self I ino ip1)
        (j := entry ((bn - NDIRECT - NINDIRECT) / NINDIRECT)) rfl hr1.here hr1.ne_zero hS.2.1
        hroom1
      have hr2 := indexEntry_reaches hr1.sound hr1.owned (table_self I ino ip1)
        (l := .second (entry ((bn - NDIRECT - NINDIRECT) / NINDIRECT))) rfl hr1.here
        hr1.ne_zero h2
      obtain ⟨⟨fs3, e⟩, h3⟩ := indexEntry_ok (table_self _ ino ip1)
        (j := entry (bn - NDIRECT - NINDIRECT)) rfl hr2.here hr2.ne_zero hS.2.2
        (hr2.room S hS.2.1 hroom1)
      rw [entry_div hbound] at h2
      exact ⟨fs3, ip1, e, by
        rw [if_pos hbound, h1, ok_bind, h2, ok_bind]
        show (fs2.indexEntry c _ >>= _) = _
        rw [show (bn - NDIRECT - NINDIRECT) % NINDIRECT = entry (bn - NDIRECT - NINDIRECT) from rfl,
          h3]
        rfl⟩

theorem ptr_up_ne_zero {d : Dinode} (hup : l.up = some (p, j))
    (h : fs.ptr d l ≠ 0) : fs.ptr d p ≠ 0 := fun hp => h (by rw [ptr_of_up hup, hp, sub_zero])

theorem inodeEntry_of_ne (h : ip.addrs i ≠ 0) : fs.inodeEntry ip i = .ok (fs, ip, ip.addrs i) :=
  if_neg h

theorem indexEntry_of_ne {d : Dinode} (hup : l.up = some (p, j))
    (h : fs.ptr d l ≠ 0) : fs.indexEntry (fs.ptr d p) j = .ok (fs, fs.ptr d l) := by
  have hword : fs.ptr d l = getWord (fs.block (fs.ptr d p)) j := by
    rw [ptr_of_up hup, sub_of_ne fs (ptr_up_ne_zero hup h)]
  rw [indexEntry, if_neg (by rwa [← hword]), hword]

/-- For a block that is there `bmap` changes nothing. -/
theorem bmap_of_ne (hbn : bn < MAXFILE) (h : fs.ptr ip.toDinode (locOf bn) ≠ 0) :
    fs.bmap ip bn = .ok (fs, ip, fs.ptr ip.toDinode (locOf bn)) := by
  unfold bmap
  split
  · next hd =>
    rw [locOf_direct hd] at h ⊢
    exact inodeEntry_of_ne h
  · next hd =>
    simp only
    split
    · next hi =>
      rw [locOf_indirect hd hi] at h ⊢
      have hindex := indexEntry_of_ne (p := Loc.indirect) (j := ⟨bn - NDIRECT, hi⟩) rfl h
      have htop : ip.addrs ⟨NDIRECT, indirect_lt⟩ ≠ 0 :=
        ptr_up_ne_zero (p := Loc.indirect) (j := ⟨bn - NDIRECT, hi⟩) rfl h
      rw [inodeEntry_of_ne htop, ok_bind]
      show (fs.indexEntry (fs.ptr ip.toDinode Loc.indirect) _ >>= _) = _
      rw [hindex]
      rfl
    · next hi =>
      have hbound : bn - NDIRECT - NINDIRECT < NDBINDIRECT := by
        simp only [MAXFILE] at hbn
        omega
      rw [locOf_double hd hi] at h ⊢
      have hsecond : fs.ptr ip.toDinode
          (.second (entry ((bn - NDIRECT - NINDIRECT) / NINDIRECT))) ≠ 0 :=
        ptr_up_ne_zero (j := entry (bn - NDIRECT - NINDIRECT)) rfl h
      have htop : ip.addrs ⟨NDIRECT + 1, double_lt⟩ ≠ 0 :=
        ptr_up_ne_zero (p := Loc.double)
          (j := entry ((bn - NDIRECT - NINDIRECT) / NINDIRECT)) rfl hsecond
      have h2 := indexEntry_of_ne (p := Loc.double)
        (j := entry ((bn - NDIRECT - NINDIRECT) / NINDIRECT)) rfl hsecond
      rw [entry_div hbound] at h2
      have h3 : fs.indexEntry _ ((bn - NDIRECT - NINDIRECT) % NINDIRECT) = _ :=
        indexEntry_of_ne (j := entry (bn - NDIRECT - NINDIRECT)) rfl h
      rw [if_pos hbound, inodeEntry_of_ne htop, ok_bind]
      show (fs.indexEntry (fs.ptr ip.toDinode Loc.double) _ >>= _) = _
      rw [h2, ok_bind]
      show (fs.indexEntry _ _ >>= _) = _
      rw [h3]
      rfl

end Disk
end Fs
end Xv6

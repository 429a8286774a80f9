import Xv6.Fs.Write

/-!
# Xv6.Fs.Trunc

`itrunc`: every block number of an inode is freed once, at each of the three
levels, and nothing else is.  As the block numbers of an inode that owns its
blocks are different and in use, none of the calls of `bfree` can fail.
-/

namespace Xv6

open Lib Function List Set

namespace Fs

/-- The inode without its content. -/
def Inode.emptied (ip : Inode) : Inode := { ip with size := 0, addrs := fun _ => 0 }

namespace Disk

/-! ## Freeing the blocks of some places -/

/-- The blocks at the places in `done` of an inode are freed.  The entries of its
double-indirect block at those places may be cleared. -/
structure Frees (fs0 : Disk) (d0 : Dinode) (done : Set Loc) (fs : Disk) : Prop where
  same : SameMeta fs0 fs
  marked : ∀ c < fs0.sb.size, fs.marked c = true ↔
    fs0.marked c = true ∧ ¬ ∃ l ∈ done, fs0.ptr d0 l = c ∧ c ≠ 0
  block : ∀ c, InData fs0.sb c → c ≠ fs0.ptr d0 Loc.double → fs.block c = fs0.block c
  word : fs0.ptr d0 Loc.double ≠ 0 → ∀ j : Fin NINDIRECT, .second j ∉ done →
    getWord (fs.block (fs0.ptr d0 Loc.double)) j = getWord (fs0.block (fs0.ptr d0 Loc.double)) j
  /-- One call of `bfree`, with its `log_write`, for each place with a block. -/
  calls : ∃ places : List Loc, places.Nodup ∧
    (∀ l, l ∈ places ↔ l ∈ done ∧ fs0.ptr d0 l ≠ 0) ∧
    fs.logged = places.map (fun l => BBLOCK (fs0.ptr d0 l) fs0.sb) ++ fs0.logged

section

variable {fs0 fs fs' : Disk} {I : Table} {ino : Nat} {d0 : Dinode} {done A : Set Loc} {l : Loc}

theorem Frees.refl (fs : Disk) (d0 : Dinode) : Frees fs d0 ∅ fs :=
  ⟨.refl fs, fun _ _ => by simp, fun _ _ _ => rfl, fun _ _ _ => rfl, [], by simp⟩

section

variable (h : Frees fs0 d0 done fs)
include h

/-- There is nothing to free at places without block numbers. -/
theorem Frees.skip (hA : ∀ l ∈ A, fs0.ptr d0 l = 0) : Frees fs0 d0 (done ∪ A) fs where
  same := h.same
  marked c hc := by
    rw [h.marked c hc]
    refine and_congr_right fun _ => not_congr ⟨?_, ?_⟩
    · rintro ⟨l, hl, heq⟩
      exact ⟨l, .inl hl, heq⟩
    · rintro ⟨l, hl, heq, hne⟩
      refine ⟨l, hl.resolve_right fun hl => hne ?_, heq, hne⟩
      rw [← heq, hA l hl]
  block := h.block
  word hd j hj := h.word hd j fun hmem => hj (.inl hmem)
  calls := by
    obtain ⟨places, hnodup, hmem, hlogged⟩ := h.calls
    refine ⟨places, hnodup, fun l => ?_, hlogged⟩
    rw [hmem l]
    constructor
    · rintro ⟨hl, hne⟩
      exact ⟨.inl hl, hne⟩
    · rintro ⟨hl, hne⟩
      exact ⟨hl.resolve_right fun hl => hne (hA l hl), hne⟩

theorem Frees.block_index (ho : Owned fs0 I) (hI : I ino = some d0) (hne : fs0.ptr d0 l ≠ 0)
    (hl : l ≠ Loc.double) :
    fs.block (fs0.ptr d0 l) = fs0.block (fs0.ptr d0 l) := by
  have hheld : ∀ l, fs0.held I (ino, l) = fs0.ptr d0 l := held_of_some hI
  have harea := ho.mem_area (ino, l) (by rwa [hheld])
  rw [hheld] at harea
  refine h.block _ harea fun heq => hl ?_
  rw [← hheld, ← hheld] at heq
  exact congrArg Prod.snd (ho.inj (ino, l) _ (by rwa [hheld]) heq)

variable (hs : Sound fs0) (ho : Owned fs0 I) (hI : I ino = some d0)
include hs ho hI

theorem Frees.sound : Sound fs where
  layout := h.same.layout hs.layout
  readsb := h.same.readsb.trans (hs.readsb.trans h.same.sb.symm)
  reserved b hb hlt := by
    rw [h.same.sb] at hb hlt
    refine (h.marked b hlt).mpr ⟨hs.reserved b hb hlt, ?_⟩
    rintro ⟨l, -, heq, hne⟩
    have harea : InData fs0.sb (fs0.held I (ino, l)) :=
      ho.mem_area _ (by rwa [held_of_some hI, heq])
    rw [held_of_some hI, heq] at harea
    exact absurd harea.1 (by omega)

/-- The block at a place that is not yet freed can be freed. -/
theorem Frees.bfree (hl : l ∉ done) (hne : fs0.ptr d0 l ≠ 0) :
    ∃ fs', fs.bfree (fs0.ptr d0 l) = .ok fs' ∧ Frees fs0 d0 (done ∪ {l}) fs' := by
  have hheld : ∀ l, fs0.held I (ino, l) = fs0.ptr d0 l := held_of_some hI
  have hused := ho.mem_used (ino, l) (by rwa [hheld])
  rw [hheld] at hused
  have hmarked : fs.marked (fs0.ptr d0 l) = true := by
    refine (h.marked _ hused.1).mpr ⟨hused.2, ?_⟩
    rintro ⟨l', hl', heq, -⟩
    rw [← hheld, ← hheld] at heq
    have hplace := ho.inj (ino, l') (ino, l) (by rwa [heq, hheld]) heq
    cases hplace
    exact hl hl'
  have hok : fs.bfree (fs0.ptr d0 l) = .ok (fs.setMap (fs0.ptr d0 l) fun x m => x &&& ~~~m) := by
    rw [bfree_eq (h.sound hs ho hI), hmarked]
    rfl
  have hgives := gives_of_bfree (h.sound hs ho hI) (h.same.sb ▸ hused.1) hok
  refine ⟨_, hok, h.same.trans hgives.same, fun c hc => ?_, fun c hc hcd => ?_, fun hd j hj => ?_,
    ?_⟩
  · rw [hgives.marked c (h.same.sb ▸ hc), Bool.and_eq_true, h.marked c hc, Bool.not_eq_true',
      decide_eq_false_iff_not, and_assoc]
    refine and_congr_right fun _ => ⟨?_, fun hnot => ⟨?_, ?_⟩⟩
    · rintro ⟨hnot, hc'⟩ ⟨l', hl', heq, hne'⟩
      cases hl' with
      | inl hl' => exact hnot ⟨l', hl', heq, hne'⟩
      | inr hl' => exact hc' (hl' ▸ heq)
    · rintro ⟨l', hl', heq⟩
      exact hnot ⟨l', .inl hl', heq⟩
    · intro heq
      exact hnot ⟨l, .inr rfl, heq, heq ▸ hne⟩
  · rw [hgives.block c (h.same.sb ▸ hc), h.block c hc hcd]
  · have harea := ho.mem_area (ino, Loc.double) (by rwa [hheld])
    rw [hheld] at harea
    rw [hgives.block _ (h.same.sb ▸ harea), h.word hd j fun hmem => hj (.inl hmem)]
  · obtain ⟨places, hnodup, hmem, hlogged⟩ := h.calls
    refine ⟨l :: places, nodup_cons.mpr ⟨fun hin => hl ((hmem l).mp hin).1, hnodup⟩,
      fun l' => ?_, ?_⟩
    · rw [mem_cons, hmem l', mem_union, mem_singleton_iff]
      constructor
      · rintro (rfl | ⟨hin, hne'⟩)
        · exact ⟨.inr rfl, hne⟩
        · exact ⟨.inl hin, hne'⟩
      · rintro ⟨hin | rfl, hne'⟩
        · exact .inr ⟨hin, hne'⟩
        · exact .inl rfl
    · rw [map_cons, cons_append, ← hlogged, ← h.same.sb]
      rfl

/-- The same for a place that may have no block number. -/
theorem Frees.turn (hl : l ∉ done) :
    ∃ fs', (if fs0.ptr d0 l ≠ 0 then fs.bfree (fs0.ptr d0 l) else .ok fs) = .ok fs' ∧
      Frees fs0 d0 (done ∪ {l}) fs' := by
  by_cases hne : fs0.ptr d0 l ≠ 0
  · obtain ⟨fs', hok, h'⟩ := h.bfree hs ho hI hl hne
    exact ⟨fs', by rw [if_pos hne, hok], h'⟩
  · refine ⟨fs, if_neg hne, h.skip fun l' hl' => ?_⟩
    rw [hl']
    exact not_not.mp hne

/-! ## The loops over the index blocks -/

/-- The loop over the index block at `p`, whose entries are at the places `entries`. -/
theorem Frees.words {p : Loc} (entries : Fin NINDIRECT → Loc)
    (hup : ∀ j, (entries j).up = some (p, j)) (hne : fs0.ptr d0 p ≠ 0) (hp : p ≠ Loc.double)
    (hdone : ∀ j, entries j ∉ done) :
    ∃ fs', forEach (truncWord (fs0.ptr d0 p)) (finRange NINDIRECT) fs = .ok fs' ∧
      Frees fs0 d0 (done ∪ range entries) fs' := by
  have hinj : ∀ j k, entries j = entries k → j = k := fun j k heq => by
    have hj := hup j
    rw [heq, hup k] at hj
    simpa using hj.symm
  have hloop : ∃ fs', forEach (truncWord (fs0.ptr d0 p)) (finRange NINDIRECT) fs = .ok fs' ∧
      Frees fs0 d0 (done ∪ ⋃ j ∈ finRange NINDIRECT, {entries j}) fs' :=
    forEach_parts (Frees fs0 d0) (fun j => {entries j})
      (fun j _ done fs h hdis => by
        have hword : getWord (fs.block (fs0.ptr d0 p)) j = fs0.ptr d0 (entries j) := by
          rw [h.block_index ho hI hne hp, ptr_of_up (hup j), sub_of_ne fs0 hne]
        rw [truncWord, hword]
        exact h.turn hs ho hI (disjoint_singleton_right.mp hdis))
      ((nodup_finRange NINDIRECT).pairwise_of_forall_ne fun j _ k _ hjk =>
        disjoint_singleton.mpr fun heq => hjk (hinj j k heq))
      (fun j _ => disjoint_singleton_right.mpr (hdone j)) h
  simpa using hloop

/-- The places of a second-level block and its entries. -/
def branch (j : Fin NINDIRECT) : Set Loc := insert (.second j) (range (Loc.leaf j))

/-- Clearing an entry of the double-indirect block whose block is freed. -/
theorem Frees.clear (hne : fs0.ptr d0 Loc.double ≠ 0) {j : Fin NINDIRECT} (hj : .second j ∈ done)
    (v : Nat) :
    Frees fs0 d0 done { fs with
      block := update fs.block (fs0.ptr d0 Loc.double)
        (putWord (fs.block (fs0.ptr d0 Loc.double)) j v) } := by
  have harea := ho.mem_area (ino, Loc.double) (by rwa [held_of_some hI])
  rw [held_of_some hI] at harea
  have harea' : InData fs.sb (fs0.ptr d0 Loc.double) := h.same.sb ▸ harea
  have hl := h.same.layout hs.layout
  -- the buffer is changed as by a write to the block
  have hmeta := sameMeta_logWrite hl harea' (putWord (fs.block (fs0.ptr d0 Loc.double)) j v)
  refine ⟨h.same.trans ⟨hmeta.sb, hmeta.readsb, hmeta.dinode⟩, fun c hc => ?_, fun c hc hcd => ?_,
    fun _ k hk => ?_, h.calls⟩
  · have hkeep := marked_logWrite hl harea' (h.same.sb ▸ hc)
      (putWord (fs.block (fs0.ptr d0 Loc.double)) j v)
    rw [← h.marked c hc, ← hkeep]
    rfl
  · rw [← h.block c hc hcd]
    exact update_of_ne hcd _ _
  · have hjk : (k : Nat) ≠ j := fun heq => hk (by rwa [Fin.ext heq])
    rw [← h.word hne k hk]
    show getWord (update fs.block _ _ _) k = _
    rw [update_self, getWord_putWord_of_ne _ v hjk]

theorem truncSecond_frees (hne : fs0.ptr d0 Loc.double ≠ 0) {j : Fin NINDIRECT}
    (hdone : Disjoint done (branch j)) :
    ∃ fs', truncSecond (fs0.ptr d0 Loc.double) fs j = .ok fs' ∧
      Frees fs0 d0 (done ∪ branch j) fs' := by
  have hsecond : Loc.second j ∉ done := fun hmem =>
    disjoint_left.mp hdone hmem (mem_insert _ _)
  have hleaf : ∀ k, Loc.leaf j k ∉ done := fun k hmem =>
    disjoint_left.mp hdone hmem (mem_insert_of_mem _ ⟨k, rfl⟩)
  have hword : getWord (fs.block (fs0.ptr d0 Loc.double)) j = fs0.ptr d0 (.second j) := by
    rw [h.word hne j hsecond, ← sub_of_ne fs0 hne]
    rfl
  unfold truncSecond
  simp only [hword]
  by_cases hb : fs0.ptr d0 (.second j) ≠ 0
  · obtain ⟨fs₁, h1, hf1⟩ := h.words hs ho hI (Loc.leaf j) (fun _ => rfl) hb (by simp) hleaf
    obtain ⟨fs₂, h2, hf2⟩ := hf1.bfree hs ho hI (l := .second j) (by simpa using hsecond) hb
    have hall : done ∪ range (Loc.leaf j) ∪ {.second j} = done ∪ branch j := by
      rw [branch, union_assoc, union_singleton]
    rw [hall] at hf2
    refine ⟨_, by rw [if_pos hb, h1, ok_bind, h2]; rfl, hf2.clear hs ho hI hne ?_ 0⟩
    exact .inr (mem_insert _ _)
  · refine ⟨fs, if_neg hb, h.skip fun l hl => ?_⟩
    have hzero : fs0.ptr d0 (.second j) = 0 := not_not.mp hb
    cases hl with
    | inl hl => rw [hl, hzero]
    | inr hl =>
      obtain ⟨k, rfl⟩ := hl
      rw [ptr_of_up (p := .second j) (j := k) rfl, hzero, sub_zero]

end

end

/-! ## The inode -/

/-- The block numbers at the places in `done` are freed and those of the inode itself
cleared. -/
structure Truncs (fs0 : Disk) (ip0 : Inode) (done : Set Loc) (s : Disk × Inode) : Prop where
  disk : Frees fs0 ip0.toDinode done s.1
  inode : s.2 = { ip0 with addrs := s.2.addrs }
  cleared : ∀ i, .top i ∈ done → s.2.addrs i = 0
  rest : ∀ i, .top i ∉ done → s.2.addrs i = ip0.addrs i

section

variable {fs0 fs : Disk} {I : Table} {ino : Nat} {ip0 : Inode} {done A : Set Loc} {s : Disk × Inode}

section

variable (h : Truncs fs0 ip0 done s)
include h

theorem Truncs.skip (hA : ∀ l ∈ A, fs0.ptr ip0.toDinode l = 0) : Truncs fs0 ip0 (done ∪ A) s where
  disk := h.disk.skip hA
  inode := h.inode
  cleared i hi := by
    by_cases hmem : .top i ∈ done
    · exact h.cleared i hmem
    · rw [h.rest i hmem]
      exact hA (.top i) (hi.resolve_left hmem)
  rest i hi := h.rest i fun hmem => hi (.inl hmem)

/-- Freeing blocks of index blocks does not change the inode. -/
theorem Truncs.frees (hf : Frees fs0 ip0.toDinode (done ∪ A) fs)
    (hA : ∀ i, .top i ∉ A) : Truncs fs0 ip0 (done ∪ A) (fs, s.2) where
  disk := hf
  inode := h.inode
  cleared i hi := h.cleared i (hi.resolve_right (hA i))
  rest i hi := h.rest i fun hmem => hi (.inl hmem)

variable (hs : Sound fs0) (ho : Owned fs0 I) (hI : I ino = some ip0.toDinode)
include hs ho hI

theorem truncAddr_truncs {i : Fin (NDIRECT + 2)} (hi : .top i ∉ done) (hne : ip0.addrs i ≠ 0) :
    ∃ s', truncAddr s i = .ok s' ∧ Truncs fs0 ip0 (done ∪ {.top i}) s' := by
  obtain ⟨fs', hok, hf⟩ := h.disk.bfree hs ho hI hi hne
  have haddr : s.2.addrs i = fs0.ptr ip0.toDinode (.top i) := h.rest i hi
  refine ⟨_, by rw [truncAddr, haddr, hok]; rfl, hf, ?_, fun k hk => ?_, fun k hk => ?_⟩
  · rw [h.inode]
  · by_cases hki : k = i
    · rw [hki]
      exact update_self ..
    · have hk' : .top k ∈ done := hk.resolve_right (by simpa using hki)
      rw [← h.cleared k hk']
      exact update_of_ne hki _ _
  · have hki : k ≠ i := fun heq => hk (.inr (by rw [heq]; rfl))
    rw [← h.rest k fun hmem => hk (.inl hmem)]
    exact update_of_ne hki _ _

theorem truncDirect_truncs {i : Fin NDIRECT} (hi : .top ⟨i, directEntry_lt i⟩ ∉ done) :
    ∃ s', truncDirect s i = .ok s' ∧ Truncs fs0 ip0 (done ∪ {.top ⟨i, directEntry_lt i⟩}) s' := by
  unfold truncDirect
  rw [h.rest _ hi]
  by_cases hne : ip0.addrs ⟨i, directEntry_lt i⟩ ≠ 0
  · rw [if_pos hne]
    exact truncAddr_truncs h hs ho hI hi hne
  rw [if_neg hne]
  refine ⟨s, rfl, h.skip fun l hl => ?_⟩
  rw [hl]
  exact not_not.mp hne

theorem truncIndirect_truncs (hdone : Disjoint done (insert Loc.indirect (range .ind))) :
    ∃ s', truncIndirect s = .ok s' ∧
      Truncs fs0 ip0 (done ∪ insert Loc.indirect (range .ind)) s' := by
  have htop : Loc.indirect ∉ done := fun hmem =>
    disjoint_left.mp hdone hmem (mem_insert _ _)
  have hind : ∀ j, Loc.ind j ∉ done := fun j hmem =>
    disjoint_left.mp hdone hmem (mem_insert_of_mem _ ⟨j, rfl⟩)
  unfold truncIndirect
  simp only
  rw [h.rest _ htop]
  by_cases hne : ip0.addrs ⟨NDIRECT, indirect_lt⟩ ≠ 0
  · obtain ⟨fs₁, h1, hf1⟩ := h.disk.words hs ho hI (p := Loc.indirect) .ind (fun _ => rfl) hne
      (by decide) hind
    obtain ⟨s', h', ht'⟩ := truncAddr_truncs (h.frees hf1 (by simp)) hs ho hI
      (i := ⟨NDIRECT, indirect_lt⟩) (by simpa using htop) hne
    have hall : done ∪ range .ind ∪ {Loc.indirect} =
        done ∪ insert Loc.indirect (range .ind) := by
      rw [union_assoc, union_singleton]
    rw [hall] at ht'
    exact ⟨s', by rw [if_pos hne]; exact bind_eq_ok.mpr ⟨fs₁, h1, h'⟩, ht'⟩
  · rw [if_neg hne]
    refine ⟨s, rfl, h.skip fun l hl => ?_⟩
    have hzero : fs0.ptr ip0.toDinode Loc.indirect = 0 := not_not.mp hne
    cases hl with
    | inl hl => rw [hl, hzero]
    | inr hl =>
      obtain ⟨j, rfl⟩ := hl
      rw [ptr_of_up (p := Loc.indirect) (j := j) rfl, hzero, sub_zero]

/-- The places of the double-indirect block and what is below it. -/
def doublePlaces : Set Loc := insert Loc.double (⋃ j ∈ finRange NINDIRECT, branch j)

theorem truncDouble_truncs (hdone : Disjoint done doublePlaces) :
    ∃ s', truncDouble s = .ok s' ∧ Truncs fs0 ip0 (done ∪ doublePlaces) s' := by
  have htop : Loc.double ∉ done := fun hmem =>
    disjoint_left.mp hdone hmem (mem_insert _ _)
  have hbranch : ∀ j, Disjoint done (branch j) := fun j =>
    hdone.mono_right fun l hl => mem_insert_of_mem _ (by simpa using ⟨j, hl⟩)
  have htopBranch : ∀ i j, Loc.top i ∉ branch j := fun i j => by simp [branch]
  unfold truncDouble
  simp only
  rw [h.rest _ htop]
  by_cases hne : ip0.addrs ⟨NDIRECT + 1, double_lt⟩ ≠ 0
  · obtain ⟨fs₁, h1, hf1⟩ : ∃ fs₁, forEach (truncSecond (fs0.ptr ip0.toDinode Loc.double))
        (finRange NINDIRECT) s.1 = .ok fs₁ ∧
        Frees fs0 ip0.toDinode (done ∪ ⋃ j ∈ finRange NINDIRECT, branch j) fs₁ :=
      forEach_parts (Frees fs0 ip0.toDinode) branch
        (fun j _ done fs hf hdis => truncSecond_frees hf hs ho hI hne hdis)
        ((nodup_finRange NINDIRECT).pairwise_of_forall_ne fun j _ k _ hjk =>
          disjoint_left.mpr fun l hj hk => by
            simp only [branch, Set.mem_insert_iff, Set.mem_range] at hj hk
            grind)
        (fun j _ => hbranch j) h.disk
    obtain ⟨s', h', ht'⟩ := truncAddr_truncs (h.frees hf1 (by simp [htopBranch])) hs ho hI
      (i := ⟨NDIRECT + 1, double_lt⟩) (by simpa [htopBranch] using htop) hne
    have hall : done ∪ (⋃ j ∈ finRange NINDIRECT, branch j) ∪ {Loc.double} =
        done ∪ doublePlaces := by
      rw [union_assoc, union_singleton, doublePlaces]
    rw [hall] at ht'
    exact ⟨s', by rw [if_pos hne]; exact bind_eq_ok.mpr ⟨fs₁, h1, h'⟩, ht'⟩
  · rw [if_neg hne]
    refine ⟨s, rfl, h.skip fun l hl => ?_⟩
    have hzero : fs0.ptr ip0.toDinode Loc.double = 0 := not_not.mp hne
    have hsecond : ∀ j, fs0.ptr ip0.toDinode (.second j) = 0 := fun j => by
      rw [ptr_of_up (p := Loc.double) (j := j) rfl, hzero, sub_zero]
    cases hl with
    | inl hl => rw [hl, hzero]
    | inr hl =>
      simp only [Set.mem_iUnion, branch, Set.mem_insert_iff, Set.mem_range] at hl
      obtain ⟨j, -, hl⟩ := hl
      cases hl with
      | inl hl => rw [hl, hsecond]
      | inr hl =>
        obtain ⟨k, rfl⟩ := hl
        rw [ptr_of_up (p := .second j) (j := k) rfl, hsecond, sub_zero]

end

/-- The places of the direct blocks. -/
def directPlaces : Set Loc := ⋃ i ∈ finRange NDIRECT, {.top ⟨i, directEntry_lt i⟩}

theorem mem_directPlaces {l : Loc} : l ∈ directPlaces ↔ ∃ i, l = .top i ∧ i < NDIRECT := by
  simp only [directPlaces, mem_finRange, iUnion_true, mem_iUnion, mem_singleton_iff]
  constructor
  · rintro ⟨i, hl⟩
    exact ⟨_, hl, i.isLt⟩
  · rintro ⟨i, hl, hi⟩
    exact ⟨⟨i, hi⟩, hl⟩

theorem mem_doublePlaces {l : Loc} : l ∈ doublePlaces ↔
    l = Loc.double ∨ ∃ j, l = .second j ∨ ∃ k, l = .leaf j k := by
  simp only [doublePlaces, branch, mem_finRange, Set.iUnion_true, Set.mem_insert_iff,
    Set.mem_iUnion, Set.mem_range, eq_comm]

/-- The three parts are all the places there are. -/
theorem places_univ (l : Loc) :
    l ∈ (∅ ∪ directPlaces) ∪ insert Loc.indirect (range .ind) ∪ doublePlaces := by
  simp only [Set.mem_union, mem_directPlaces, mem_doublePlaces, Set.mem_insert_iff, Set.mem_range]
  cases l with
  | top i =>
    have hi := i.isLt
    simp only [Loc.top.injEq, Fin.ext_iff]
    by_cases hd : i.val < NDIRECT
    · exact .inl (.inl (.inr ⟨i, rfl, hd⟩))
    · by_cases hi' : i.val = NDIRECT
      · exact .inl (.inr (.inl hi'))
      · exact .inr (.inl (by omega))
  | ind j => exact .inl (.inr (.inr ⟨j, rfl⟩))
  | second j => exact .inr (.inr ⟨j, .inl rfl⟩)
  | leaf j k => exact .inr (.inr ⟨j, .inr ⟨k, rfl⟩⟩)

/-- The part of `itrunc` before `iupdate` frees everything. -/
theorem trunc_frees (hs : Sound fs0) (ho : Owned fs0 I) (hI : I ino = some ip0.toDinode) :
    ∃ fs, fs0.itrunc ip0 = .ok (fs.iupdate { ip0 with size := 0, addrs := fun _ => 0 },
        { ip0 with size := 0, addrs := fun _ => 0 }) ∧
      Frees fs0 ip0.toDinode Set.univ fs := by
  have h0 : Truncs fs0 ip0 ∅ (fs0, ip0) := ⟨.refl fs0 _, rfl, by simp, fun _ _ => rfl⟩
  have hpair : (finRange NDIRECT).Pairwise fun i k =>
      Disjoint ({.top ⟨i, directEntry_lt i⟩} : Set Loc) {.top ⟨k, directEntry_lt k⟩} :=
    (nodup_finRange NDIRECT).pairwise_of_forall_ne fun i _ k _ hik => by
      simpa [Fin.ext_iff] using hik
  obtain ⟨s1, hok1, h1⟩ : ∃ s1, forEach truncDirect (finRange NDIRECT) (fs0, ip0) = .ok s1 ∧
      Truncs fs0 ip0 (∅ ∪ directPlaces) s1 :=
    forEach_parts (Truncs fs0 ip0) (fun i : Fin NDIRECT => ({.top ⟨i, directEntry_lt i⟩} : Set Loc))
      (fun i _ done s h hdis =>
        truncDirect_truncs h hs ho hI (Set.disjoint_singleton_right.mp hdis))
      hpair (by simp) h0
  obtain ⟨s2, hok2, h2⟩ := truncIndirect_truncs h1 hs ho hI (by
    refine Set.disjoint_left.mpr fun l hl hl' => ?_
    rw [Set.empty_union, mem_directPlaces] at hl
    obtain ⟨i, rfl, hi⟩ := hl
    simp [Fin.ext_iff] at hl'
    omega)
  obtain ⟨s3, hok3, h3⟩ := truncDouble_truncs h2 hs ho hI (by
    refine Set.disjoint_left.mpr fun l hl hl' => ?_
    rw [Set.empty_union, Set.mem_union, mem_directPlaces, Set.mem_insert_iff, Set.mem_range] at hl
    rw [mem_doublePlaces] at hl'
    grind)
  have huniv := Set.eq_univ_of_forall places_univ
  rw [huniv] at h3
  obtain ⟨fs, ip⟩ := s3
  have hip : ({ ip with size := 0 } : Inode) = { ip0 with size := 0, addrs := fun _ => 0 } := by
    have haddrs : ip.addrs = fun _ => 0 := funext fun i => h3.cleared i trivial
    have hinode : ip = { ip0 with addrs := ip.addrs } := h3.inode
    rw [hinode, haddrs]
  refine ⟨fs, ?_, h3.disk⟩
  rw [itrunc, hok1, ok_bind, hok2, ok_bind, hok3, ok_bind]
  simp only [hip]
  rfl

end

/-! ## itrunc -/

section

variable {fs0 fs fs' : Disk} {I : Table} {ino : Nat} {d0 d : Dinode} {ip : Inode}

theorem Frees.held_eq (h : Frees fs0 d0 univ fs) (ho : Owned fs0 I) (hI : I ino = some d0)
    (hd : ∀ i, d.addrs i = 0) :
    fs.held (update I ino (some d)) = fun x => if x.1 ≠ ino then fs0.held I x else 0 := by
  funext ⟨m, l⟩
  by_cases hm : m = ino
  · subst hm
    rw [held_of_some (update_self ..), ptr_of_empty hd, if_neg (by simp)]
  rw [if_pos hm]
  simp only [held, update_of_ne hm]
  cases hIm : I m with
  | none => rfl
  | some dm =>
    have hptr : fs.ptr dm = fs0.ptr dm := ptr_eq_of_blocks hIm fun p hp _ => by
      refine h.block _ (ho.mem_area _ hp) fun heq => hm ?_
      rw [← held_of_some hI] at heq
      exact congrArg Prod.fst (ho.inj _ _ hp heq)
    simp only [hptr]

theorem Frees.used_eq (h : Frees fs0 d0 univ fs) (hI : I ino = some d0) :
    fs.used = fs0.used \ { b | ∃ x : Place, ¬ x.1 ≠ ino ∧ fs0.held I x ≠ 0 ∧ fs0.held I x = b } := by
  ext b
  simp only [used, mem_sdiff, mem_ofPred_eq, h.same.sb]
  constructor
  · rintro ⟨hlt, hmarked⟩
    obtain ⟨hold, hnot⟩ := (h.marked b hlt).mp hmarked
    refine ⟨⟨hlt, hold⟩, ?_⟩
    rintro ⟨⟨m, l⟩, hm, hne, heq⟩
    obtain rfl : m = ino := not_not.mp hm
    rw [held_of_some hI] at hne heq
    exact hnot ⟨l, trivial, heq, heq ▸ hne⟩
  · rintro ⟨⟨hlt, hold⟩, hnot⟩
    refine ⟨hlt, (h.marked b hlt).mpr ⟨hold, ?_⟩⟩
    rintro ⟨l, -, heq, hne⟩
    refine hnot ⟨(ino, l), by simp, ?_, ?_⟩
    · rwa [held_of_some hI, heq]
    · rw [held_of_some hI, heq]

/-- When all its blocks are freed, an inode without block numbers takes its place. -/
theorem Frees.spares (h : Frees fs0 d0 univ fs) (hs : Sound fs0) (ho : Owned fs0 I)
    (hI : I ino = some d0) (hd : ∀ i, d.addrs i = 0) :
    Spares ino fs0 I fs (update I ino (some d)) where
  sb := h.same.sb
  dinode m hm _ := h.same.dinode m hm
  sound := h.sound hs ho hI
  owned := by
    rw [Owned, h.held_eq ho hI hd, h.used_eq hI, h.same.sb]
    exact ho.restrict fun x => x.1 ≠ ino
  covered hc := by
    rw [Covered, h.held_eq ho hI hd, h.used_eq hI, h.same.sb]
    exact hc.restrict (fun hzero => hs.layout.data_ne_zero hzero rfl) fun x => x.1 ≠ ino
  other m hm := update_of_ne hm _ _
  frame x hx := by
    rw [h.held_eq ho hI hd]
    exact if_pos hx
  block x hx _ hne := by
    refine h.block _ (ho.mem_area x hne) fun heq => hx ?_
    rw [← held_of_some hI] at heq
    exact congrArg Prod.fst (ho.inj _ _ hne heq)

/-- **`itrunc` frees exactly the blocks of the inode**, and it never finds one of them
free. -/
theorem itrunc_spares (hs : Sound fs) (ho : Owned fs I) (hI : I ip.inum = some ip.toDinode)
    (hino : ip.inum < fs.sb.ninodes) :
    ∃ fs', fs.itrunc ip = .ok (fs', ip.emptied) ∧
      Spares ip.inum fs I fs' (update I ip.inum (some ip.emptied.toDinode)) ∧
      fs'.dinode ip.inum = ip.emptied.toDinode ∧
      ∀ c < fs.sb.size, fs'.marked c = true ↔
        fs.marked c = true ∧ ¬ ∃ l, fs.ptr ip.toDinode l = c ∧ c ≠ 0 := by
  obtain ⟨fs₁, hok, hf⟩ := trunc_frees hs ho hI
  have hspares := hf.spares hs ho hI (d := ip.emptied.toDinode) fun _ => rfl
  have hino1 : ip.inum < fs₁.sb.ninodes := hspares.sb ▸ hino
  have hself : update I ip.inum (some ip.emptied.toDinode) ip.inum =
      some ip.emptied.toDinode := update_self ..
  have hupdate := works_setDinode hspares.sound hino1 hspares.owned hself rfl
  have hfits : ip.emptied.toDinode.Fits :=
    ⟨show 0 < 2 ^ 32 by decide, fun _ => show 0 < 2 ^ 32 by decide⟩
  rw [update_idem] at hupdate
  refine ⟨_, hok, hspares.trans hupdate.toSpares, dinode_setDinode_same fs₁ ip.inum hfits,
    fun c hc => ?_⟩
  rw [iupdate, marked_setDinode hspares.sound.layout hino1, hf.marked c hc]
  simp

/-! ## Writing and truncating -/

/-- Calls of `writei` one after the other, with their data, offset and length. -/
def writeAll (fs : Disk) (ip : Inode) (ws : List (Bytes × UInt32 × UInt32)) :
    Except FsPanic (Disk × Inode) :=
  forEach (fun s w => do
    let (fs, ip, _) ← s.1.writei s.2 w.1 w.2.1.toNat w.2.2.toNat
    return (fs, ip)) ws (fs, ip)

theorem writeAll_works {fs₁ : Disk} {ip₁ : Inode} {ws : List (Bytes × UInt32 × UInt32)}
    (hs : Sound fs) (ho : Owned fs I) (hI : I ip.inum = some ip.toDinode)
    (hino : ip.inum < fs.sb.ninodes) (h : fs.writeAll ip ws = .ok (fs₁, ip₁)) :
    ip₁.inum = ip.inum ∧
      Works ip.inum fs I fs₁ (update I ip.inum (some ip₁.toDinode)) := by
  have hstart : Works ip.inum fs I fs (update I ip.inum (some ip.toDinode)) := by
    rw [← hI, update_eq_self]
    exact .refl ip.inum hs ho
  refine forEach_inv (fun s : Disk × Inode => s.2.inum = ip.inum ∧
    Works ip.inum fs I s.1 (update I ip.inum (some s.2.toDinode))) ?_ h ⟨rfl, hstart⟩
  rintro ⟨src, off, n⟩ - ⟨fsa, ipa⟩ ⟨fsb, ipb⟩ ⟨hinum, hworks⟩ hstep
  obtain ⟨⟨fsc, ipc, r⟩, hwrite, hstep⟩ := bind_eq_ok.mp hstep
  cases hstep
  simp only at hinum hworks hwrite
  have hself : update I ip.inum (some ipa.toDinode) ipa.inum = some ipa.toDinode := by
    rw [hinum, update_self]
  rcases writei_cases hworks.sound hworks.owned hself (by rw [hinum, hworks.sb]; exact hino)
    off.toNat_lt n.toNat_lt hwrite with ⟨rfl, rfl⟩ | ⟨-, -, -, -, hw⟩
  · exact ⟨hinum, hworks⟩
  · have hkeep : ipb.inum = ipa.inum := by rw [hw.inode]
    refine ⟨hkeep.trans hinum, ?_⟩
    have hnext := hw.toWorks
    rw [hinum, update_idem] at hnext
    exact hworks.trans hnext

/-- `itrunc` clears exactly the bits of the blocks of the inode, with one call
of `bfree` for each of them, leaves the inode without block numbers and with
size 0, and changes no other inode and no block of another inode.  So whatever
was written to an inode without blocks, truncating it restores the free map. -/
theorem itrunc_frees_exactly (hs : Sound fs) (ho : Owned fs I)
    (hI : I ip.inum = some ip.toDinode) (hino : ip.inum < fs.sb.ninodes) :
    (∃ fs', fs.itrunc ip = .ok (fs', ip.emptied) ∧
      (∀ c < fs.sb.size, fs'.marked c = true ↔
        fs.marked c = true ∧ ¬ ∃ l, fs.ptr ip.toDinode l = c ∧ c ≠ 0) ∧
      (∃ freed : List Nat, freed.Nodup ∧
        (∀ b, b ∈ freed ↔ b ≠ 0 ∧ ∃ l, fs.ptr ip.toDinode l = b) ∧
        fs'.logged = IBLOCK ip.inum fs.sb :: freed.map (BBLOCK · fs.sb) ++ fs.logged) ∧
      fs'.dinode ip.inum = ip.emptied.toDinode ∧
      (∀ m < fs.sb.ninodes, m ≠ ip.inum → fs'.dinode m = fs.dinode m) ∧
      ∀ x : Place, x.1 ≠ ip.inum → fs.held I x ≠ 0 →
        fs'.block (fs.held I x) = fs.block (fs.held I x)) ∧
    ((∀ i, ip.addrs i = 0) → ∀ ws fs₁ ip₁, fs.writeAll ip ws = .ok (fs₁, ip₁) →
      ∃ fs₂, fs₁.itrunc ip₁ = .ok (fs₂, ip₁.emptied) ∧
        ∀ c < fs.sb.size, fs₂.marked c = fs.marked c) := by
  constructor
  · obtain ⟨fs', hok, hspares, hdinode, hmarked⟩ := itrunc_spares hs ho hI hino
    obtain ⟨fs₁, hok1, hf⟩ := trunc_frees hs ho hI
    rw [hok, Except.ok.injEq, Prod.mk.injEq] at hok1
    obtain ⟨rfl, -⟩ := hok1
    refine ⟨_, hok, hmarked, ?_, hdinode, hspares.dinode, fun x hx hne => ?_⟩
    · obtain ⟨places, hnodup, hmem, hlogged⟩ := hf.calls
      refine ⟨places.map (fs.ptr ip.toDinode), ?_, fun b => ?_, ?_⟩
      · -- a block number stands in one place only
        refine hnodup.map_on fun l hl l' _ heq => ?_
        have hplace := ho.inj (ip.inum, l) (ip.inum, l')
          (by rw [held_of_some hI]; exact ((hmem l).mp hl).2)
          (by rw [held_of_some hI, held_of_some hI, heq])
        exact congrArg Prod.snd hplace
      · rw [mem_map]
        constructor
        · rintro ⟨l, hl, rfl⟩
          exact ⟨((hmem l).mp hl).2, l, rfl⟩
        · rintro ⟨hb, l, rfl⟩
          exact ⟨l, (hmem l).mpr ⟨trivial, hb⟩, rfl⟩
      · rw [map_map, iupdate, setDinode, hf.same.sb]
        exact congrArg (IBLOCK ip.inum fs.sb :: ·) hlogged
    · have harea := ho.mem_area x hne
      have hother : fs.held I x ≠ fs.ptr ip.toDinode Loc.double := by
        intro heq
        rw [← held_of_some hI] at heq
        exact hx (congrArg Prod.fst (ho.inj _ _ hne heq))
      rw [iupdate, block_setDinode_data (hf.sound hs ho hI) (by rw [hf.same.sb]; exact hino) _
        (by rw [hf.same.sb]; exact harea), hf.block _ harea hother]
  · intro hempty ws fs₁ ip₁ hwrites
    obtain ⟨hinum, hworks⟩ := writeAll_works hs ho hI hino hwrites
    have hI1 : update I ip.inum (some ip₁.toDinode) ip₁.inum = some ip₁.toDinode := by
      rw [hinum, update_self]
    have hino1 : ip₁.inum < fs₁.sb.ninodes := by
      rw [hinum, hworks.sb]
      exact hino
    obtain ⟨fs₂, hok, -, -, hmarked⟩ := itrunc_spares hworks.sound hworks.owned hI1 hino1
    refine ⟨fs₂, hok, fun c hc => ?_⟩
    -- the inode held nothing before the writes, and the others have what they had
    have hback := hworks.gains.giveBack (fun x => x.1 = ip.inum)
      (fun x hx => by
        obtain ⟨m, l⟩ := x
        obtain rfl : m = ip.inum := hx
        rw [held_of_some hI]
        exact ptr_of_empty hempty l)
      (fun x hx => hworks.frame x hx)
    have hmem : c ∈ fs.used ↔ fs.marked c = true := by simp [used, hc]
    have hmem1 : c ∈ fs₁.used ↔ fs₁.marked c = true := by simp [used, hworks.sb, hc]
    rw [Bool.eq_iff_iff, hmarked c (hworks.sb ▸ hc), ← hmem, ← hback, mem_sdiff, hmem1]
    refine and_congr_right fun _ => not_congr ⟨?_, ?_⟩
    · rintro ⟨l, heq, hne⟩
      refine ⟨(ip.inum, l), rfl, ?_⟩
      rw [held_of_some (hinum ▸ hI1), heq]
      exact ⟨hne, rfl⟩
    · rintro ⟨⟨m, l⟩, hm, hne, heq⟩
      obtain rfl : m = ip.inum := hm
      rw [held_of_some (hinum ▸ hI1)] at hne heq
      exact ⟨l, heq, heq ▸ hne⟩

/-- The only block of the file on the small disk. -/
theorem itrunc_smallFile : ∃ fs', smallDisk.itrunc smallFile = .ok (fs', smallFile.emptied) ∧
    ∀ c < 100, fs'.marked c = true ↔ smallDisk.marked c = true ∧ c ≠ 34 := by
  have hself : oneTable smallFile smallFile.inum = some smallFile.toDinode := update_self ..
  obtain ⟨fs', hok, hmarked, -⟩ :=
    (itrunc_frees_exactly smallDisk_sound smallDisk_owned hself (by decide)).1
  refine ⟨fs', hok, fun c hc => ?_⟩
  rw [hmarked c hc]
  refine and_congr_right fun _ => not_congr ⟨?_, ?_⟩
  · rintro ⟨l, heq, hne⟩
    have hheld := held_oneTable rfl smallDisk (smallFile.inum, l)
    rw [held_of_some hself, heq] at hheld
    split at hheld
    · exact hheld
    · exact absurd hheld hne
  · rintro rfl
    exact ⟨.top 0, rfl, by decide⟩

end
end Disk
end Fs
end Xv6

import Xv6.Vm.Spec
import Xv6.PgdirRef

/-!
# Xv6.Mapped

Everything below the size of a process is mapped, which is what system calls
rely on when they read user memory.

`thread_create` adds 4MB to the size of its caller and maps two pages of them;
`sbrk` that gives back all memory unmaps it and then fails.
-/

namespace Xv6

open Lib Function

variable {b' : Book} {e : Event} {s s' : Kernel} {l : Layout} {free free' : List Frame} {sz : Nat}
  {d : PgDir} {c p : Slot}

/-! ## New programs -/

theorem allocuvm_le {d' : PgDir} {oldsz newsz r : Nat} (hold : oldsz ≤ KERNBASE)
    (h : allocuvm d free oldsz newsz = .ok (d', free', r)) : r ≤ KERNBASE := by
  rcases allocuvm_pte h with ⟨rfl, -⟩ | ⟨rfl, -⟩ | ⟨rfl, -, hlt, -⟩
  · exact Nat.zero_le _
  · exact hold
  · exact hlt.le

namespace Kernel

theorem exact_execLoad {phs : List ProgHdr} {d' : PgDir} {sz' : Nat} (hd : Exact d sz)
    (hsz : sz ≤ KERNBASE)
    (h : execLoad phs d free sz = .ok (some sz', d', free')) : Exact d' sz' ∧ sz' ≤ KERNBASE := by
  induction phs generalizing d free sz with
  | nil =>
    cases h
    exact ⟨hd, hsz⟩
  | cons ph phs ih =>
    unfold execLoad at h
    split at h
    · cases h
    split at h
    · exact ih hd hsz h
    split at h
    · cases h
    split at h
    · cases h
    obtain ⟨⟨d1, free1, sz1⟩, h1, h⟩ := bind_eq_ok.mp h
    dsimp only at h
    split at h
    · cases h
    next hne =>
      split at h
      · cases h
      split at h
      · cases h
      exact ih (hd.allocuvm h1 hne) (allocuvm_le hsz h1) h

theorem exact_setupkvm (h : setupkvm free = (some d, free')) : Exact d 0 := by
  refine ⟨.zero d, fun n _ _ => ?_⟩
  unfold setupkvm at h
  split at h
  · cases h
  split at h
  · cases h
    rfl
  · cases h

theorem exact_execImage {file : ExecFile} (h : execImage file free = .ok (some (d, sz), free')) :
    Exact d sz ∧ sz ≤ KERNBASE := by
  unfold execImage at h
  split at h
  · cases h
  split at h
  · cases h
  next d0 free0 h0 =>
  obtain ⟨⟨o, d1, free1⟩, h1, h⟩ := bind_eq_ok.mp h
  cases o with
  | none =>
    obtain ⟨_, _, h⟩ := bind_eq_ok.mp h
    cases h
  | some sz1 =>
    obtain ⟨hd1, hsz1⟩ := exact_execLoad (exact_setupkvm h0) (Nat.zero_le _) h1
    obtain ⟨⟨d2, free2, sz2⟩, h2, h⟩ := bind_eq_ok.mp h
    dsimp only at h
    have hwrap : sz1 + 4095 < 2 ^ 32 := by
      simp only [KERNBASE] at hsz1
      omega
    have hround : pgRoundUp sz1 ≤ KERNBASE := by
      rw [pgRoundUp_eq hwrap]
      simp only [KERNBASE, PGSIZE] at *
      omega
    have hsz2 := allocuvm_le hround h2
    split at h
    · obtain ⟨_, _, h⟩ := bind_eq_ok.mp h
      cases h
    next hne =>
    obtain ⟨d3, h3, h⟩ := bind_eq_ok.mp h
    split at h
    · obtain ⟨_, _, h⟩ := bind_eq_ok.mp h
      cases h
    cases h
    have hd2 := (hd1.pgRoundUp hwrap).allocuvm h2 hne
    refine ⟨hd2.clearpteu ?_ h3, hsz2⟩
    simp only [KERNBASE] at hsz2
    omega

end Kernel

/-! ## One process to an address space -/

namespace Book

/-- There are no threads, and nobody shares an address space. -/
structure Solo (b : Book) : Prop where
  counted : Counted b fun _ => 0
  le_one : ∀ i, b.pgdirRef i ≤ 1
  tid : ∀ p, (b.entry p).tid = 0

namespace Solo

variable {b : Book}

theorem eq_of_pgdir (h : b.Solo) {q : Slot} (hp : b.Live p) (hq : b.Live q)
    (hpg : (b.entry q).pgdir = (b.entry p).pgdir) : q = p := by
  obtain ⟨i, hi⟩ := h.counted.idx_some p hp
  have hidx := (h.counted.same q p hq hp).mpr hpg
  exact h.counted.eq_of_le_one (h.le_one i) (mem_users.mpr ⟨hp, hi⟩)
    (mem_users.mpr ⟨hq, hidx.trans hi⟩)

theorem startBook (p : Slot) (i : Fin NPROC) : (Kernel.startBook p i).Solo := by
  refine ⟨.startBook p i, ?_, ?_⟩
  · intro j
    by_cases hj : j = i
    · simp [Kernel.startBook, hj]
    · simp [Kernel.startBook, hj]
  · intro q
    by_cases hq : q = p
    · simp [Kernel.startBook, hq]
    · simp [Kernel.startBook, hq, Proc.zero, Proc.entry]

theorem retract (h : b.Solo) {np : Slot} {g : Option PgdirId} (hnp : ¬ b.Live np) :
    (b.retract np g).Solo := by
  refine ⟨h.counted.retract hnp, h.le_one, fun q => ?_⟩
  by_cases hq : q = np
  · simp [Book.retract, hq]
  · simp only [Book.retract, set_entry_of_ne b _ hq]
    exact h.tid q

theorem spawn (h : b.Solo) {np : Slot} {i : Fin NPROC} (hnp : ¬ b.Live np)
    (hi : b.pgdirRef i = 0) : (b.spawn c np i).Solo := by
  refine ⟨h.counted.spawn hnp hi, fun j => ?_, fun q => ?_⟩
  · by_cases hj : j = i
    · simp [Book.spawn, hj]
    · simp only [Book.spawn, update_of_ne hj]
      exact h.le_one j
  · by_cases hq : q = np
    · simp [Book.spawn, hq]
    · simp only [Book.spawn, set_entry_of_ne b _ hq]
      exact h.tid q

theorem die (h : b.Solo) (hp : b.Live p) : (b.die p).Solo :=
  ⟨h.counted.die hp, h.le_one, h.tid⟩

theorem collect (h : b.Solo) (hp : b.Live p) : ((b.dropRef p).clear p).Solo := by
  obtain ⟨i, hi⟩ := h.counted.idx_some p hp
  refine ⟨h.counted.collect hp, fun j => ?_, fun q => ?_⟩
  · rw [dropRef_last hi (h.le_one i)]
    obtain ⟨calls, hc⟩ :=
      freevm_eq { b with pgdirRef := update b.pgdirRef i 0 } p (b.entry p).pgdir
    rw [hc]
    by_cases hj : j = i
    · simp [clear, Book.set, hj]
    · simp only [clear, Book.set, update_of_ne hj]
      exact h.le_one j
  · by_cases hq : q = p
    · simp [clear, hq]
    · rw [collect_entry_of_ne b hq]
      exact h.tid q

theorem image (h : b.Solo) {i : Fin NPROC} (hc : b.Live c)
    (hi : ((b.newImage c).dropOld c (b.entry c).pgdir).pgdirRef i = 0) :
    (((b.newImage c).dropOld c (b.entry c).pgdir).giveIdx c i).Solo := by
  obtain ⟨k, hk⟩ := h.counted.idx_some c hc
  have hidx : ((b.newImage c).entry c).idx = some k := by simp [newImage, hk]
  refine ⟨h.counted.image hc (h.counted.dropOld_count_last hc hk (h.le_one k)) hi, fun j => ?_,
    fun q => ?_⟩
  · rw [dropOld_last hidx (h.le_one k)]
    obtain ⟨calls, hcalls⟩ := freevm_eq
      { b.newImage c with pgdirRef := update b.pgdirRef k 0 } c (b.entry c).pgdir
    simp only [show (b.newImage c).pgdirRef = b.pgdirRef from rfl, hcalls, giveIdx]
    by_cases hj : j = i
    · simp [hj]
    rw [update_of_ne hj]
    by_cases hjk : j = k
    · simp [hjk]
    · rw [update_of_ne hjk]
      exact h.le_one j
  · obtain ⟨ref, calls, hd⟩ := dropOld_eq (b.newImage c) c (b.entry c).pgdir
    rw [hd]
    by_cases hq : q = c
    · simp only [giveIdx, newImage, hq, set_entry_same]
      exact h.tid c
    · simp only [giveIdx, newImage, Book.set, update_of_ne hq]
      exact h.tid q

end Solo

/-! ## No holes -/

/-- Every process has a page directory that is filled up to its size. -/
def Mapped (b : Book) (l : Layout) : Prop :=
  ∀ p, b.Live p → ∃ g, (b.entry p).pgdir = some g ∧ Filled (l.pgdirs g) (l.sz p) ∧
    l.sz p ≤ KERNBASE

/-- What changes one process and leaves the others and their memory alone. -/
theorem Mapped.change {b : Book} {l' : Layout} (h : Mapped b l) (p : Slot)
    (hp : b'.Live p → ∃ g, (b'.entry p).pgdir = some g ∧ Filled (l'.pgdirs g) (l'.sz p) ∧
      l'.sz p ≤ KERNBASE)
    (hq : ∀ q, q ≠ p → b'.Live q → b.Live q ∧ (b'.entry q).pgdir = (b.entry q).pgdir ∧
      l'.sz q = l.sz q ∧ ∀ g, (b.entry q).pgdir = some g → l'.pgdirs g = l.pgdirs g) :
    Mapped b' l' := by
  intro q hlive
  by_cases hqp : q = p
  · subst hqp
    exact hp hlive
  · obtain ⟨hlive', hpg, hsz, hdir⟩ := hq q hqp hlive
    obtain ⟨g, hg, hfilled, hle⟩ := h q hlive'
    exact ⟨g, hpg.trans hg, by rw [hdir g hg, hsz]; exact hfilled, hsz ▸ hle⟩

/-- What changes no memory and no page directory of a process. -/
theorem Mapped.mono {b : Book} (h : Mapped b l)
    (hq : ∀ q, b'.Live q → b.Live q ∧ (b'.entry q).pgdir = (b.entry q).pgdir) : Mapped b' l := by
  intro q hlive
  rw [(hq q hlive).2]
  exact h q (hq q hlive).1

/-- A new page directory for `p` concerns nobody else. -/
theorem Mapped.newPgdir {b : Book} (h : Mapped b l) (hb : b.Solo) (hd : Filled d sz)
    (hsz : sz ≤ KERNBASE) (hp : (b'.entry p).pgdir = some b.nextPgdir)
    (hq : ∀ q, q ≠ p → b'.entry q = b.entry q) :
    Mapped b'
      { sz := update l.sz p sz, pgdirs := update l.pgdirs b.nextPgdir d } := by
  refine h.change p (fun _ => ⟨b.nextPgdir, hp, ?_, ?_⟩) fun q hqp hlive => ?_
  · simp only [update_self]
    exact hd
  · simp only [update_self]
    exact hsz
  · have hlive' : b.Live q := by
      rw [Live, hq q hqp] at hlive
      exact hlive
    refine ⟨hlive', congrArg Entry.pgdir (hq q hqp), update_of_ne hqp .., ?_⟩
    intro g hg
    obtain ⟨g', hg', hlt⟩ := hb.counted.pgdir_lt q hlive'
    have hgg : g = g' := Option.some.inj (hg.symm.trans hg')
    exact update_of_ne (hgg ▸ Nat.ne_of_lt hlt) ..

end Book

namespace Kernel

/-! ## Runs -/

/-- There is no `thread_create`, and `sbrk` does not give back everything. -/
def KeepsMapped (s : Kernel) : Event → Prop
  | .call _ .threadCreate => False
  | .call c (.sbrk n) => n = 0 ∨ (s.proc c).sz + n.toInt ≠ 0
  | _ => True

/-- The invariant. -/
structure NoHoles (s : Kernel) : Prop where
  solo : s.book.Solo
  mapped : Book.Mapped s.book s.layout

/-- Growing or shrinking keeps the address space of `c` filled. -/
theorem NoHoles.filled_sbrk (hs : s.NoHoles) {n : Int32} {g : PgdirId}
    {r : Nat} (hc : (s.proc c).state = .running)
    (hg : (s.proc c).pgdir = some g) (hn : n = 0 ∨ (s.proc c).sz + n.toInt ≠ 0)
    (hmem : 0 < n.toInt ∧ allocuvm (s.pgdirs g) s.freelist (s.proc c).sz
        (((s.proc c).sz + n.toInt) % 2 ^ 32).toNat = .ok (d, free, r) ∨
      n.toInt < 0 ∧ deallocuvm (s.pgdirs g) s.freelist (s.proc c).sz
        (((s.proc c).sz + n.toInt) % 2 ^ 32).toNat = .ok (d, free, r)) :
    Filled d (if r = 0 then (s.proc c).sz else r) ∧
      (if r = 0 then (s.proc c).sz else r) ≤ KERNBASE := by
  obtain ⟨g', hg', hfilled, hle⟩ := hs.mapped c (live_book_running hc)
  have hgg : g' = g := Option.some.inj (hg'.symm.trans hg)
  subst hgg
  simp only [layout_sz, layout_pgdirs] at hfilled hle
  rcases hmem with ⟨-, h⟩ | ⟨hneg, h⟩
  · obtain ⟨hold, hnew⟩ := hfilled.allocuvm h
    have hr := allocuvm_le hle h
    split
    · exact ⟨hold, hle⟩
    · exact ⟨hnew, hr⟩
  · have hnew := hfilled.deallocuvm hle h
    have hmin := (deallocuvm_pte hle h).1
    split
    · next hr =>
      -- only an empty process ends up with nothing
      have hzero : (s.proc c).sz = 0 := by
        have hlow := Int32.le_toInt n
        have hne : (s.proc c).sz + n.toInt ≠ 0 := by
          rcases hn with rfl | hn
          · simp at hneg
          · exact hn
        rw [hr] at hmin
        simp only [KERNBASE] at hle
        omega
      rw [hr] at hnew
      rw [hzero]
      exact ⟨hnew, Nat.zero_le _⟩
    · refine ⟨hnew, ?_⟩
      rw [hmin]
      exact (min_le_left _ _).trans hle

/-- Without threads, `exit` only ends its caller. -/
theorem exit_solo (hs : s.book.Solo) (h : s.exit c = .ok s') :
    s'.book = s.book.die c ∧ s'.layout = s.layout := by
  obtain ⟨-, ⟨-, h⟩ | ⟨-, s1, h1, h⟩ | ⟨htid, -⟩⟩ := exit_cases h
  · have hd := died_commonExit h
    exact ⟨hd.book, hd.layout⟩
  · have hs1 : s1 = s := by
      refine forEach_inv (fun k => k = s) (fun p _ k k' hk hturn => ?_) h1 rfl
      subst hk
      rcases exitMasterThread_cases hturn with rfl | ⟨-, htid, -⟩
      · rfl
      · exact absurd (hs.tid p) htid
    rw [hs1] at h
    have hd := died_commonExit h
    exact ⟨hd.book, hd.layout⟩
  · exact absurd (hs.tid c) htid

/-- No process calls `thread_create`. -/
def NoThreadCreate (_ : Kernel) : Event → Prop
  | .call _ .threadCreate => False
  | _ => True

theorem KeepsMapped.noThreadCreate (h : s.KeepsMapped e) : s.NoThreadCreate e := by
  unfold NoThreadCreate
  split
  · exact h
  · trivial

/-- Without `thread_create` no page directory is ever shared. -/
theorem solo_next (hs : s.book.Solo) (hg : s.NoThreadCreate e)
    (hn : s.next e = some s') : s'.book.Solo := by
  cases step_of_next hn with
  | quiet hb | sbrk hb => exact hb ▸ hs
  | retract hnp hb =>
    rw [hb]
    exact hs.retract (not_live_book hnp)
  | fork hc hnp hi hb =>
    rw [hb]
    exact hs.spawn (not_live_book hnp) hi
  | exec hc hi hb =>
    rw [hb]
    exact hs.image (live_book_running hc) hi
  | threadCreate => exact absurd hg id
  | threadExit hc hinit hb =>
    rw [hb]
    exact hs.die (live_book_running hc)
  | threadJoin hz hb | wait hz hb =>
    rw [hb]
    exact hs.collect (live_book_zombie hz)
  | exit hc h =>
    rw [(exit_solo hs h).1]
    exact hs.die (live_book_running hc)

theorem solo_of_reachable (h : ReachableBy NoThreadCreate s) : s.book.Solo := by
  refine h.inv (fun s => s.book.Solo) ?_ fun _ _ _ hs hg hn => solo_next hs hg hn
  intro s hs
  obtain ⟨p, i, hb⟩ := started_book hs
  rw [hb]
  exact .startBook p i

theorem NoHoles.of_started (h : Started s) : s.NoHoles := by
  obtain ⟨_, _, _, h⟩ := h
  obtain ⟨p, i, s1, free', d, sz, -, hb, himg, hsz, hdir⟩ := start_cases h
  obtain ⟨⟨hfilled, -⟩, hle⟩ := exact_execImage himg
  constructor
  · rw [hb]
    exact .startBook p i
  · intro q hq
    rw [hb, Book.live_startBook] at hq
    subst hq
    refine ⟨1, ?_, ?_, ?_⟩
    · rw [hb]
      simp [startBook]
    · rw [layout_pgdirs, layout_sz, hdir, hsz]
      exact hfilled
    · rw [layout_sz, hsz]
      exact hle

theorem mapped_collect (hs : Book.Mapped s.book s.layout)
    (hb : s'.book = (s.book.dropRef p).clear p) (hl : s'.layout = s.layout) :
    Book.Mapped s'.book s'.layout := by
  rw [hb, hl]
  refine hs.mono fun q hlive => ?_
  by_cases hq : q = p
  · simp [hq, Book.Live, Book.clear] at hlive
  · rw [Book.Live, Book.collect_entry_of_ne _ hq] at hlive
    exact ⟨hlive, congrArg Entry.pgdir (Book.collect_entry_of_ne _ hq)⟩

theorem NoHoles.next (hs : s.NoHoles) (hg : s.KeepsMapped e)
    (hn : s.next e = some s') : s'.NoHoles := by
  obtain ⟨hsolo, hmap⟩ := hs
  refine ⟨solo_next hsolo hg.noThreadCreate hn, ?_⟩
  cases step_of_next hn with
  | quiet hb hl =>
    rw [hb, hl]
    exact hmap
  | @retract _ _ np g hnp hb hl =>
    rw [hb, hl]
    refine hmap.mono fun q hlive => ?_
    by_cases hq : q = np
    · rw [hq, Book.Live, Book.retract, Book.set_entry_same] at hlive
      exact absurd hlive (not_live_book hnp)
    · have he : (s.book.retract np g).entry q = s.book.entry q := Book.set_entry_of_ne _ _ hq
      rw [Book.Live, he] at hlive
      exact ⟨hlive, congrArg Entry.pgdir he⟩
  | @fork _ c np i g d free free' hc hnp hi hb htid ht hgc hcopy hl =>
    obtain ⟨g', hg', hfilled, hle⟩ := hmap c (live_book_running hc)
    rw [hb, hl]
    refine hmap.newPgdir hsolo (filled_copyuvm ?_ hcopy) hle ?_ ?_
    · simp only [layout_sz, KERNBASE] at hle
      omega
    · simp [Book.spawn]
    · exact fun q hq => Book.set_entry_of_ne _ _ hq
  | @exec _ c file i d sz free' hc hi hb ht himg hl =>
    obtain ⟨⟨hfilled, -⟩, hle⟩ := exact_execImage himg
    obtain ⟨ref, calls, hd⟩ := Book.dropOld_eq (s.book.newImage c) c (s.proc c).pgdir
    rw [hb, hl, hd]
    refine hmap.newPgdir hsolo hfilled hle ?_ ?_
    · simp [Book.giveIdx, Book.newImage]
    · intro q hq
      simp [Book.giveIdx, Book.newImage, Book.set, hq]
  | @sbrk _ c n g d free r hb ht hc hgc hmem hl =>
    obtain ⟨hfilled, hle⟩ := NoHoles.filled_sbrk ⟨hsolo, hmap⟩ hc hgc hg hmem
    rw [hb, hl]
    have hsz : (if r = 0 then s.layout.sz else update s.layout.sz c r) c =
        if r = 0 then (s.proc c).sz else r := by
      split <;> simp
    refine hmap.change c (fun _ => ⟨g, hgc, ?_, ?_⟩) fun q hq hlive => ⟨hlive, rfl, ?_, ?_⟩
    · simp only [update_self, hsz]
      exact hfilled
    · simp only [hsz]
      exact hle
    · split
      · rfl
      · exact update_of_ne hq ..
    · intro g' hg'
      refine update_of_ne ?_ ..
      rintro rfl
      exact hq (hsolo.eq_of_pgdir (live_book_running hc) hlive (hg'.trans hgc.symm))
  | threadCreate => exact absurd hg id
  | @threadExit _ c retval hc hinit hb hl =>
    rw [hb, hl]
    exact hmap.mono fun q hq => ⟨(Book.live_die (live_book_running hc) q).mp hq, rfl⟩
  | @threadJoin s1 _ c p thread hz hb hc hparent htid ht hstack hl =>
    have hlayout : s1.layout = s.layout := by
      obtain ⟨i, -, ⟨-, h⟩ | ⟨hgt, -⟩⟩ := removeThreadStack_layout hstack
      · exact h
      · exact absurd (hsolo.le_one i) hgt
    exact mapped_collect hmap hb (hl.trans hlayout)
  | wait hz hb hc hkid ht hl => exact mapped_collect hmap hb hl
  | @exit _ c hc h =>
    obtain ⟨hb, hl⟩ := exit_solo hsolo h
    rw [hb, hl]
    exact hmap.mono fun q hq => ⟨(Book.live_die (live_book_running hc) q).mp hq, rfl⟩

/-! ## The result -/

/-- Every process in the table has a page directory in which every address
below its size is present. -/
def SzMapped (s : Kernel) : Prop :=
  ∀ p, s.Live p → ∃ g, (s.proc p).pgdir = some g ∧
    ∀ va < (s.proc p).sz, (s.pgdirs g).Present va

/-- **Everything below `sz` is mapped** in every run without `thread_create`
and without an `sbrk` that gives back everything. -/
theorem szMapped_of_keepsMapped {s : Kernel} (h : ReachableBy KeepsMapped s) : s.SzMapped := by
  have hs : s.NoHoles := h.inv NoHoles (fun _ => .of_started) fun _ _ _ hs hg hn => hs.next hg hn
  intro p hp
  obtain ⟨g, hg, hfilled, hle⟩ := hs.mapped p ((live_book s p).mpr hp)
  refine ⟨g, hg, fun va hva => hfilled.present ?_ hva⟩
  simp only [layout_sz, KERNBASE] at hle
  omega

/-- The process in entry 1 gets one more page. -/
def grown : List Event := forked ++ [.call 1 (.sbrk 4096)]

theorem szMapped_grown :
    ∃ s : Kernel, ReachableBy KeepsMapped s ∧ s.Live 1 ∧ (s.proc 1).sz = 16384 ∧ s.SzMapped := by
  obtain ⟨s, hr, hs⟩ := exists_reachableBy KeepsMapped
    (P := fun s => s.Live 1 ∧ (s.proc 1).sz = 16384)
    (List.range' 1 400) (fun _ => false) smallProgram grown
    (by
      simp only [grown, forked, List.cons_append, List.nil_append, List.forall_mem_cons,
        KeepsMapped, implies_true, true_and, List.not_mem_nil, false_implies, and_true]
      intro s
      have h4096 : (4096 : Int32).toInt = 4096 := by decide
      omega)
    (by decide +kernel)
  exact ⟨s, hr, hs.1, hs.2, szMapped_of_keepsMapped hr⟩

/-- Init creates a thread. -/
def created : List Event := [.call 0 .threadCreate]

/-- After `thread_create` the address right above the new stack is below the
size of the caller and not mapped. -/
theorem not_szMapped_created :
    ∃ s : Kernel, s.Reachable ∧ s.Live 0 ∧ 0x5000 < (s.proc 0).sz ∧
      (∀ g, (s.proc 0).pgdir = some g → ¬ (s.pgdirs g).Present 0x5000) ∧ ¬ s.SzMapped := by
  obtain ⟨s, hr, hlive, hpg, hsz, habsent⟩ := exists_reachableBy (fun _ _ => True)
    (P := fun s => s.Live 0 ∧ (s.proc 0).pgdir = some 1 ∧ 0x5000 < (s.proc 0).sz ∧
      ¬ (s.pgdirs 1).Present 0x5000)
    (List.range' 1 400) (fun _ => false) smallProgram created
    (fun _ _ _ => trivial) (by decide +kernel)
  have hall : ∀ g, (s.proc 0).pgdir = some g → ¬ (s.pgdirs g).Present 0x5000 := by
    intro g hg
    rw [hpg, Option.some.injEq] at hg
    exact hg ▸ habsent
  refine ⟨s, hr, hlive, hsz, hall, fun hm => ?_⟩
  obtain ⟨g, hg, hpresent⟩ := hm 0 hlive
  exact hall g hg (hpresent 0x5000 hsz)

end Kernel
end Xv6

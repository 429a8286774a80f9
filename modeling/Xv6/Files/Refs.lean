import Xv6.Lib.RefCount
import Xv6.Panics
import Xv6.Clean
import Xv6.Files

/-!
# Xv6.Files.Refs

The reference counts of open files and of cached inodes.

Inside a call references are in the hands of the kernel: a file structure
without a descriptor yet, a descriptor that has just been cleared, an inode
that `namei` returned.  Each function takes some of them and leaves others, and
at the end of a call the hands are empty.
-/

namespace Xv6

open Lib Function

/-- The inode a file refers to. -/
def FileKind.inode? : FileKind → Option InodeId
  | .inode ip => some ip
  | _ => Option.none

/-- One end of a pipe is closed. -/
def Pipe.closeEnd (x : Pipe) (writable : Bool) : Pipe :=
  if writable then { x with writeopen := false } else { x with readopen := false }

namespace Kernel

/-! ## What refers to files and inodes -/

/-- The descriptors of all processes. -/
def fds (s : Kernel) : Slot × Fin NOFILE → Option FileId := fun k => (s.proc k.1).ofile k.2

/-- The places that refer to the inode cache: open files and current
directories. -/
def inodeRefs (s : Kernel) : FileId ⊕ Slot → Option InodeId :=
  Sum.elim (fun f => (s.ftable f).kind.inode?) fun p => (s.proc p).cwd

/-- The entry `p` is `UNUSED` or a zombie. -/
def Idle (s : Kernel) (p : Slot) : Prop :=
  (s.proc p).state = .unused ∨ (s.proc p).state = .zombie

/-- `p` has no open files and no current directory. -/
def NoFiles (s : Kernel) (p : Slot) : Prop :=
  (s.proc p).ofile = (fun _ => none) ∧ (s.proc p).cwd = none

/-- The counts are right for the descriptors, with `fs` and `is` in the hands
of the kernel. -/
structure RefCounted (fs : List FileId) (is : List InodeId) (s : Kernel) : Prop where
  file : Balanced (File.ref ∘ s.ftable) s.fds fs
  inode : Balanced (Inode.ref ∘ s.icache) s.inodeRefs is
  closed : ∀ f, (s.ftable f).ref = 0 → (s.ftable f).kind = .none
  typed : ∀ f, (s.ftable f).kind = .none → holders s.fds f = 0
  idle : ∀ p, s.Idle p → s.NoFiles p

/-- One end of the pipe in the page `p` is open. -/
def pipeEnd (s : Kernel) (p : Frame) (writable : Bool) : Bool :=
  if writable then (s.pipes p).writeopen else (s.pipes p).readopen

/-- From `s` to `s'` files are released: with a file of a pipe its end is
closed, and no end is closed without its file. -/
structure Sheds (s s' : Kernel) : Prop where
  writable : ∀ f, (s'.ftable f).writable = (s.ftable f).writable
  file : ∀ f, (s'.ftable f).kind = (s.ftable f).kind ∨ (s'.ftable f).kind = .none ∧
    ∀ p, (s.ftable f).kind = .pipe p → s'.pipeEnd p (s.ftable f).writable = false
  shut : ∀ p w, s.pipeEnd p w = false → s'.pipeEnd p w = false
  cause : ∀ p w, s.pipeEnd p w = true → s'.pipeEnd p w = false →
    ∃ f, (s.ftable f).kind = .pipe p ∧ (s.ftable f).writable = w ∧ (s'.ftable f).kind = .none

variable {s s1 s' : Kernel} {p c np : Slot} {f : FileId} {ip : InodeId} {fd : Fin NOFILE}
  {fs : List FileId} {is : List InodeId}

theorem sheds_of_tables (hft : ∀ f, (s'.ftable f).kind = (s.ftable f).kind ∧
    (s'.ftable f).writable = (s.ftable f).writable) (hpp : s'.pipes = s.pipes) : Sheds s s' where
  writable f := (hft f).2
  file f := .inl (hft f).1
  shut p w h := by
    unfold pipeEnd at *
    rwa [hpp]
  cause p w h h' := by
    unfold pipeEnd at *
    rw [hpp] at h'
    rw [h'] at h
    contradiction

theorem Sheds.refl (s : Kernel) : Sheds s s := sheds_of_tables (fun _ => ⟨rfl, rfl⟩) rfl

theorem Sheds.trans (h1 : Sheds s s1) (h2 : Sheds s1 s') : Sheds s s' where
  writable f := (h2.writable f).trans (h1.writable f)
  file f := by
    rcases h1.file f with hk1 | ⟨hk1, hend1⟩
    · rw [← hk1, ← h1.writable f]
      exact h2.file f
    refine .inr ⟨?_, fun p hp => h2.shut _ _ (hend1 p hp)⟩
    rcases h2.file f with hk2 | ⟨hk2, -⟩
    · rw [hk2, hk1]
    · exact hk2
  shut p w h := h2.shut p w (h1.shut p w h)
  cause p w h h' := by
    cases hmid : s1.pipeEnd p w with
    | true =>
      obtain ⟨f, hk, hw, hnone⟩ := h2.cause p w hmid h'
      refine ⟨f, ?_, (h1.writable f).symm.trans hw, hnone⟩
      rcases h1.file f with hk1 | ⟨hk1, -⟩
      · rw [← hk1, hk]
      · rw [hk] at hk1
        contradiction
    | false =>
      obtain ⟨f, hk, hw, hnone⟩ := h1.cause p w h hmid
      refine ⟨f, hk, hw, ?_⟩
      rcases h2.file f with hk2 | ⟨hk2, -⟩
      · rw [hk2, hnone]
      · exact hk2

/-! ## Steps that touch no file -/

/-- Descriptors, current directories and the tables behind them are the same,
and a process that has ended meanwhile has none. -/
structure FilesKept (s s' : Kernel) : Prop where
  ftable : s'.ftable = s.ftable
  ref : Inode.ref ∘ s'.icache = Inode.ref ∘ s.icache
  pipes : s'.pipes = s.pipes
  ofile : ∀ q, (s'.proc q).ofile = (s.proc q).ofile
  cwd : ∀ q, (s'.proc q).cwd = (s.proc q).cwd
  idle : ∀ q, s'.Idle q → s.Idle q ∨ s.NoFiles q

namespace FilesKept

theorem refl (s : Kernel) :
    FilesKept s s := ⟨rfl, rfl, rfl, fun _ => rfl, fun _ => rfl, fun _ => .inl⟩

theorem noFiles (h : FilesKept s s') (hp : s.NoFiles p) : s'.NoFiles p :=
  ⟨(h.ofile p).trans hp.1, (h.cwd p).trans hp.2⟩

theorem noFiles_iff (h : FilesKept s s') : s'.NoFiles p ↔ s.NoFiles p := by
  unfold NoFiles
  rw [h.ofile, h.cwd]

theorem trans (h1 : FilesKept s s1) (h2 : FilesKept s1 s') : FilesKept s s' where
  ftable := h2.ftable.trans h1.ftable
  ref := h2.ref.trans h1.ref
  pipes := h2.pipes.trans h1.pipes
  ofile q := (h2.ofile q).trans (h1.ofile q)
  cwd q := (h2.cwd q).trans (h1.cwd q)
  idle q hq := by
    rcases h2.idle q hq with hidle | hno
    · exact h1.idle q hidle
    · exact .inr (h1.noFiles_iff.mp hno)

theorem fds (h : FilesKept s s') : s'.fds = s.fds := funext fun k => congrFun (h.ofile k.1) k.2

theorem inodeRefs (h : FilesKept s s') : s'.inodeRefs = s.inodeRefs := by
  unfold Kernel.inodeRefs
  rw [h.ftable]
  simp only [h.cwd]

theorem sheds (h : FilesKept s s') : Sheds s s' :=
  sheds_of_tables (fun f => by simp [h.ftable]) h.pipes

theorem refCounted (h : FilesKept s s') (hs : RefCounted fs is s) : RefCounted fs is s' where
  file := by
    rw [h.ftable, h.fds]
    exact hs.file
  inode := by
    rw [h.ref, h.inodeRefs]
    exact hs.inode
  closed := by
    rw [h.ftable]
    exact hs.closed
  typed := by
    rw [h.ftable, h.fds]
    exact hs.typed
  idle q hq := by
    rcases h.idle q hq with hidle | hno
    · exact h.noFiles (hs.idle q hidle)
    · exact h.noFiles hno

end FilesKept

theorem filesKept_upd (s : Kernel) (p : Slot) {g : Proc → Proc}
    (hof : (g (s.proc p)).ofile = (s.proc p).ofile) (hwd : (g (s.proc p)).cwd = (s.proc p).cwd)
    (hidle : (g (s.proc p)).state = .unused ∨ (g (s.proc p)).state = .zombie →
      s.Idle p ∨ s.NoFiles p) : FilesKept s (s.upd p g) where
  ftable := rfl
  ref := rfl
  pipes := rfl
  ofile := upd_view_eq s p hof
  cwd := upd_view_eq s p hwd
  idle q hq := by
    by_cases hqp : q = p
    · subst hqp
      unfold Idle at hq
      rw [upd_proc_same] at hq
      exact hidle hq
    · unfold Idle at hq ⊢
      rw [upd_proc_of_ne s g hqp] at hq
      exact .inl hq

theorem FilesKept.upd {g : Proc → Proc} (h : FilesKept s s1)
    (hof : (g (s1.proc p)).ofile = (s1.proc p).ofile) (hwd : (g (s1.proc p)).cwd = (s1.proc p).cwd)
    (hidle : (g (s1.proc p)).state = .unused ∨ (g (s1.proc p)).state = .zombie →
      s1.Idle p ∨ s1.NoFiles p) : FilesKept s (s1.upd p g) :=
  h.trans (filesKept_upd s1 p hof hwd hidle)

theorem wakeup1_entry (s : Kernel) (chan : Chan) (q : Slot) :
    (s.wakeup1 chan).proc q = s.proc q ∨
      (s.wakeup1 chan).proc q = { s.proc q with state := .runnable } := by
  by_cases hq : (s.proc q).state = .sleeping ∧ (s.proc q).chan = chan
  · exact .inr (if_pos hq)
  · exact .inl (if_neg hq)

theorem filesKept_wakeup1 (s : Kernel) (chan : Chan) : FilesKept s (s.wakeup1 chan) where
  ftable := rfl
  ref := rfl
  pipes := rfl
  ofile q := by rcases wakeup1_entry s chan q with h | h <;> rw [h]
  cwd q := by rcases wakeup1_entry s chan q with h | h <;> rw [h]
  idle q hq := by
    unfold Idle at *
    rcases wakeup1_entry s chan q with h | h
    · rw [h] at hq
      exact .inl hq
    · simp [h] at hq

theorem setOfile_fds (s : Kernel) (p : Slot) (fd : Fin NOFILE) (v : Option FileId) :
    (s.setOfile p fd v).fds = update s.fds (p, fd) v := by
  funext ⟨q, fd'⟩
  unfold fds setOfile
  by_cases hq : q = p
  · subst hq
    by_cases hfd : fd' = fd
    · simp [hfd]
    · simp [hfd]
  · simp [upd_proc_of_ne s _ hq, hq]

theorem setOfile_cwd (s : Kernel) (p q : Slot) (fd : Fin NOFILE) (v : Option FileId) :
    ((s.setOfile p fd v).proc q).cwd = (s.proc q).cwd :=
  upd_view_eq (f := Proc.cwd) s p rfl q

theorem setOfile_idle {v : Option FileId} : (s.setOfile p fd v).Idle c ↔ s.Idle c := by
  unfold Idle
  rw [setOfile, upd_view_eq (f := Proc.state) s p rfl c]

theorem setOfile_inodeRefs (s : Kernel) (p : Slot) (fd : Fin NOFILE) (v : Option FileId) :
    (s.setOfile p fd v).inodeRefs = s.inodeRefs := by
  unfold inodeRefs
  simp only [setOfile_cwd]
  rfl

theorem RefCounted.put (h : RefCounted (f :: fs) is s) (hfd : (s.proc p).ofile fd = none)
    (hp : ¬ s.Idle p) (hkind : (s.ftable f).kind ≠ .none) :
    RefCounted fs is (s.setOfile p fd (some f)) where
  file := by
    rw [setOfile_fds]
    exact h.file.put hfd
  inode := by
    rw [setOfile_inodeRefs]
    exact h.inode
  closed := h.closed
  typed g hg := by
    have hne : f ≠ g := fun heq => hkind (heq ▸ hg)
    have hplace : s.fds (p, fd) = none := hfd
    rw [setOfile_fds, holders_update_some hplace, if_neg hne, Nat.add_zero]
    exact h.typed g hg
  idle q hq := by
    rw [setOfile_idle] at hq
    have hqp : q ≠ p := fun heq => hp (heq ▸ hq)
    unfold NoFiles
    rw [setOfile, upd_proc_of_ne s _ hqp]
    exact h.idle q hq

/-- The file of a descriptor that is cleared is in the hand. -/
theorem RefCounted.take (h : RefCounted fs is s) (hfd : (s.proc p).ofile fd = some f) :
    RefCounted (f :: fs) is (s.setOfile p fd none) where
  file := by
    rw [setOfile_fds]
    exact h.file.take hfd
  inode := by
    rw [setOfile_inodeRefs]
    exact h.inode
  closed := h.closed
  typed g hg := by
    have hle := holders_update_none (t := s.fds) (k := (p, fd)) hfd g
    rw [setOfile_fds]
    have hzero := h.typed g hg
    omega
  idle q hq := by
    rw [setOfile_idle] at hq
    obtain ⟨hof, hwd⟩ := h.idle q hq
    refine ⟨?_, (setOfile_cwd s p q fd none).trans hwd⟩
    by_cases hqp : q = p
    · subst hqp
      rw [hof] at hfd
      contradiction
    · rw [setOfile, upd_proc_of_ne s _ hqp, hof]

theorem RefCounted.perm {fs' : List FileId} (h : RefCounted fs is s) (hp : fs.Perm fs') :
    RefCounted fs' is s :=
  ⟨h.file.perm hp, h.inode, h.closed, h.typed, h.idle⟩

theorem RefCounted.setRef {fs' : List FileId} {n : Int} (h : RefCounted fs is s) (hn : 0 < n)
    (hfile : Balanced (update (File.ref ∘ s.ftable) f n) s.fds fs') :
    RefCounted fs' is
      { s with ftable := update s.ftable f { s.ftable f with ref := n } } := by
  have hkind : ∀ g, (update s.ftable f { s.ftable f with ref := n } g).kind =
      (s.ftable g).kind := fun g => by
    by_cases hg : g = f
    · simp [hg]
    · simp [hg]
  refine ⟨?_, ?_, fun g hg => ?_, fun g hg => ?_, h.idle⟩
  · rw [comp_update]
    exact hfile
  · have hrefs : ({ s with ftable := update s.ftable f { s.ftable f with ref := n } } :
        Kernel).inodeRefs = s.inodeRefs := by
      unfold inodeRefs
      simp only [hkind]
      rfl
    rw [hrefs]
    exact h.inode
  · simp only at hg ⊢
    rw [hkind]
    by_cases hgf : g = f
    · rw [hgf, update_self] at hg
      simp only at hg
      omega
    · rw [update_of_ne hgf] at hg
      exact h.closed g hg
  · simp only [hkind] at hg
    exact h.typed g hg

theorem RefCounted.made (h : RefCounted fs is s) (hpos : 0 < (s.ftable f).ref) :
    RefCounted (f :: fs) is { s with
      ftable := update s.ftable f
        { s.ftable f with ref := (s.ftable f).ref + 1 } } :=
  h.setRef (by omega) (h.file.made f)

/-- `iget` and `idup`: one more reference to an inode. -/
theorem RefCounted.idup (h : RefCounted fs is s) (ip : InodeId) :
    RefCounted fs (ip :: is) (s.idup (some ip)) where
  file := h.file
  inode := by
    show Balanced (Inode.ref ∘ update s.icache ip _) s.inodeRefs (ip :: is)
    rw [comp_update]
    exact h.inode.made ip
  closed := h.closed
  typed := h.typed
  idle := h.idle

theorem RefCounted.iput (h : RefCounted fs (ip :: is) s) : RefCounted fs is (s.iput (some ip)) where
  file := h.file
  inode := by
    show Balanced (Inode.ref ∘ update s.icache ip _) s.inodeRefs is
    have hdrop := h.inode.drop
    rw [comp_update]
    convert hdrop using 3
    simp only [Function.comp_apply]
    split <;> rfl
  closed := h.closed
  typed := h.typed
  idle := h.idle

theorem endOp_filesKept (s : Kernel) : FilesKept s s.endOp := filesKept_wakeup1 s logChan

theorem iput_sheds (s : Kernel) (ip : Option InodeId) : Sheds s (s.iput ip) := by
  cases ip with
  | none => exact .refl s
  | some ip => exact sheds_of_tables (fun _ => ⟨rfl, rfl⟩) rfl

/-- `p->cwd = v` -/
def setCwd (s : Kernel) (p : Slot) (v : Option InodeId) : Kernel :=
  s.upd p fun x => { x with cwd := v }

theorem setCwd_fds (s : Kernel) (p : Slot) (v : Option InodeId) : (s.setCwd p v).fds = s.fds :=
  funext fun k => congrFun (upd_view_eq (f := Proc.ofile) s p rfl k.1) k.2

theorem setCwd_inodeRefs (s : Kernel) (p : Slot) (v : Option InodeId) :
    (s.setCwd p v).inodeRefs = update s.inodeRefs (.inr p) v := by
  unfold inodeRefs
  rw [Sum.update_elim_inr]
  exact congrArg (Sum.elim _) (upd_view (f := Proc.cwd) s p _)

theorem setCwd_idle {v : Option InodeId} : (s.setCwd p v).Idle c ↔ s.Idle c := by
  unfold Idle
  rw [setCwd, upd_view_eq (f := Proc.state) s p rfl c]

/-- The table of inode references changes at the directory of a process. -/
theorem RefCounted.setCwd {is' : List InodeId} {v : Option InodeId} (h : RefCounted fs is s)
    (hinode : Balanced (Inode.ref ∘ s.icache) (update s.inodeRefs (.inr p) v) is')
    (hv : s.Idle p → v = none) : RefCounted fs is' (s.setCwd p v) where
  file := by
    rw [setCwd_fds]
    exact h.file
  inode := by
    rw [setCwd_inodeRefs]
    exact hinode
  closed := h.closed
  typed g hg := by
    rw [setCwd_fds]
    exact h.typed g hg
  idle q hq := by
    rw [setCwd_idle] at hq
    obtain ⟨hof, hwd⟩ := h.idle q hq
    refine ⟨(upd_view_eq (f := Proc.ofile) s p rfl q).trans hof, ?_⟩
    by_cases hqp : q = p
    · subst hqp
      simp [Kernel.setCwd, hv hq]
    · rw [Kernel.setCwd, upd_proc_of_ne s _ hqp, hwd]

/-- `f->ref = 0; f->type = FD_NONE` -/
def freeFile (s : Kernel) (f : FileId) : Kernel :=
  { s with ftable := update s.ftable f { s.ftable f with ref := 0, kind := .none } }

theorem freeFile_inodeRefs (s : Kernel) (f : FileId) :
    (s.freeFile f).inodeRefs = update s.inodeRefs (.inl f) none := by
  unfold inodeRefs
  rw [Sum.update_elim_inl]
  congr 1
  funext g
  by_cases hg : g = f
  · simp [freeFile, hg, FileKind.inode?]
  · simp [freeFile, hg]

/-- The last reference to a file is dropped, and its inode is in the hand. -/
theorem RefCounted.freeFile (h : RefCounted (f :: fs) is s) (hlast : (s.ftable f).ref = 1) :
    RefCounted fs ((s.ftable f).kind.inode?.toList ++ is) (s.freeFile f) where
  file := by
    show Balanced (File.ref ∘ update s.ftable f _) s.fds fs
    have hdrop := h.file.drop
    rw [comp_update]
    convert hdrop using 2
    simp [hlast]
  inode := by
    show Balanced (Inode.ref ∘ s.icache) (s.freeFile f).inodeRefs _
    rw [freeFile_inodeRefs]
    cases hkind : (s.ftable f).kind.inode? with
    | none =>
      have hplace : s.inodeRefs (.inl f) = none := hkind
      have hsame : update s.inodeRefs (.inl f) none = s.inodeRefs := by
        conv_lhs => rw [← hplace, update_eq_self]
      rw [hsame]
      exact h.inode
    | some ip =>
      have hplace : s.inodeRefs (.inl f) = some ip := hkind
      exact h.inode.take hplace
  closed g hg := by
    by_cases hgf : g = f
    · simp [Kernel.freeFile, hgf]
    · simp only [Kernel.freeFile, update_of_ne hgf] at hg ⊢
      exact h.closed g hg
  typed g hg := by
    show holders s.fds g = 0
    by_cases hgf : g = f
    · have hcount := h.file f
      rw [Function.comp_apply, hlast, List.count_cons_self] at hcount
      subst hgf
      omega
    · simp only [Kernel.freeFile, update_of_ne hgf] at hg
      exact h.typed g hg
  idle := h.idle

theorem freeFile_sheds (s : Kernel) (f : FileId) (hkind : ∀ p, (s.ftable f).kind ≠ .pipe p) :
    Sheds s (s.freeFile f) where
  writable g := by
    by_cases hg : g = f
    · simp [freeFile, hg]
    · simp [freeFile, hg]
  file g := by
    by_cases hg : g = f
    · subst hg
      exact .inr ⟨by simp [freeFile], fun p hp => absurd hp (hkind p)⟩
    · exact .inl (by simp [freeFile, hg])
  shut _ _ h := h
  cause p w h h' := by
    have hsame : s.pipeEnd p w = false := h'
    rw [hsame] at h
    contradiction

/-- `pipeclose` closes an end, wakes processes and may free the page. -/
theorem pipeclose_eq (s : Kernel) (p : Frame) (writable : Bool) : ∃ chan free,
    s.pipeclose p writable =
      { wakeup1 { s with
          pipes := update s.pipes p ((s.pipes p).closeEnd writable) } chan with
        freelist := free } := by
  unfold pipeclose
  cases writable with
  | true =>
    refine ⟨nreadChan p, ?_⟩
    simp only [if_true]
    split
    · exact ⟨_, rfl⟩
    · exact ⟨s.freelist, rfl⟩
  | false =>
    refine ⟨nwriteChan p, ?_⟩
    simp only [Bool.false_eq_true, if_false]
    split
    · exact ⟨_, rfl⟩
    · exact ⟨s.freelist, rfl⟩

theorem RefCounted.pipeclose (h : RefCounted fs is s) (p : Frame) (writable : Bool) :
    RefCounted fs is (s.pipeclose p writable) := by
  obtain ⟨chan, free, heq⟩ := pipeclose_eq s p writable
  have hend : RefCounted fs is { s with
      pipes := update s.pipes p ((s.pipes p).closeEnd writable) } :=
    ⟨h.file, h.inode, h.closed, h.typed, h.idle⟩
  have hwake := (filesKept_wakeup1 _ chan).refCounted hend
  rw [heq]
  exact ⟨hwake.file, hwake.inode, hwake.closed, hwake.typed, hwake.idle⟩

theorem pipeclose_ftable (s : Kernel) (p : Frame) (writable : Bool) :
    (s.pipeclose p writable).ftable = s.ftable := by
  obtain ⟨chan, free, heq⟩ := pipeclose_eq s p writable
  rw [heq]
  rfl

theorem pipeclose_pipeEnd (s : Kernel) (p : Frame) (writable : Bool) (q : Frame) (w : Bool) :
    (s.pipeclose p writable).pipeEnd q w =
      if q = p ∧ w = writable then false else s.pipeEnd q w := by
  obtain ⟨chan, free, heq⟩ := pipeclose_eq s p writable
  have hpipes : (s.pipeclose p writable).pipes =
      update s.pipes p ((s.pipes p).closeEnd writable) := by
    rw [heq]
    rfl
  unfold pipeEnd
  rw [hpipes]
  by_cases hq : q = p
  · subst hq
    cases w <;> cases writable <;> simp [Pipe.closeEnd]
  · simp [hq]

theorem freeFile_pipeclose_sheds {pi : Frame} (hkind : (s.ftable f).kind = .pipe pi) :
    Sheds s ((s.freeFile f).pipeclose pi (s.ftable f).writable) where
  writable g := by
    rw [pipeclose_ftable]
    by_cases hg : g = f
    · simp [freeFile, hg]
    · simp [freeFile, hg]
  file g := by
    rw [pipeclose_ftable]
    by_cases hg : g = f
    · subst hg
      refine .inr ⟨by simp [freeFile], fun p hp => ?_⟩
      rw [hkind] at hp
      cases hp
      rw [pipeclose_pipeEnd, if_pos ⟨rfl, rfl⟩]
    · exact .inl (by simp [freeFile, hg])
  shut p w h := by
    rw [pipeclose_pipeEnd]
    split
    · rfl
    · exact h
  cause p w h h' := by
    rw [pipeclose_pipeEnd] at h'
    split at h'
    · next heq =>
      obtain ⟨rfl, rfl⟩ := heq
      refine ⟨f, hkind, rfl, ?_⟩
      rw [pipeclose_ftable]
      simp [freeFile]
    · have hsame : s.pipeEnd p w = false := h'
      rw [hsame] at h
      contradiction

/-- **`fileclose`** of a file in the hand does not panic, and releases the file
with its last reference. -/
theorem RefCounted.fileclose (h : RefCounted (f :: fs) is s) :
    ∃ s', s.fileclose f = .ok s' ∧ RefCounted fs is s' ∧ Sheds s s' := by
  have hpos : 0 < (s.ftable f).ref := h.file.pos_of_hand
  by_cases hlast : (s.ftable f).ref = 1
  · have hfree := h.freeFile hlast
    unfold Kernel.fileclose
    simp only
    rw [if_neg (by omega), if_neg (by omega)]
    cases hkind : (s.ftable f).kind with
    | none =>
      rw [hkind] at hfree
      exact ⟨_, rfl, hfree, freeFile_sheds s f (by simp [hkind])⟩
    | pipe p =>
      rw [hkind] at hfree
      exact ⟨_, rfl, hfree.pipeclose p _, freeFile_pipeclose_sheds hkind⟩
    | inode ip =>
      rw [hkind] at hfree
      have hput : RefCounted fs is ((s.freeFile f).iput (some ip)) := hfree.iput
      have hend := endOp_filesKept ((s.freeFile f).iput (some ip))
      refine ⟨_, rfl, hend.refCounted hput, ?_⟩
      have hsheds := (freeFile_sheds s f (by simp [hkind])).trans (iput_sheds _ (some ip))
      exact hsheds.trans hend.sheds
  · refine ⟨_, ?_, h.setRef (n := (s.ftable f).ref - 1) (by omega) h.file.drop, ?_⟩
    · unfold Kernel.fileclose
      simp only
      rw [if_neg (by omega), if_pos (by omega)]
    · refine sheds_of_tables (fun g => ?_) rfl
      by_cases hg : g = f
      · simp [hg]
      · simp [hg]

end Kernel
end Xv6

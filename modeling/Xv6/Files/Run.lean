import Xv6.Files.Refs

/-!
# Xv6.Files.Run

Runs of the calls that make and drop descriptors: between two system calls
every open file is counted exactly, `filedup` and `fileclose` never find a file
without references, and files are released with their last descriptor.
-/

namespace Xv6

open Lib Function

namespace Kernel

variable {s s1 s' : Kernel} {p c np : Slot} {f : FileId} {ip : InodeId} {fd : Fin NOFILE}
  {fs : List FileId} {is : List InodeId}

/-! ## Ending -/

/-- What a call leaves behind when it has no reference in its hands. -/
structure Tended (s s' : Kernel) : Prop where
  counted : RefCounted [] [] s'
  sheds : Sheds s s'

theorem Tended.kept (h : Tended s s1) (hk : FilesKept s1 s') : Tended s s' :=
  ⟨hk.refCounted h.counted, h.sheds.trans hk.sheds⟩

theorem Tended.trans (h : Tended s s1) (h' : Tended s1 s') : Tended s s' :=
  ⟨h'.counted, h.sheds.trans h'.sheds⟩

/-- From `s` to `s'` files are released and new ones made, new pipes in pages
that were free. -/
structure Lets (s s' : Kernel) : Prop where
  file : ∀ f, (s.ftable f).kind ≠ .none →
    (s'.ftable f).kind = (s.ftable f).kind ∧ (s'.ftable f).writable = (s.ftable f).writable ∨
    (s'.ftable f).kind = .none ∧
      ∀ p, (s.ftable f).kind = .pipe p → s'.pipeEnd p (s.ftable f).writable = false
  fresh : ∀ f p, (s.ftable f).kind = .none → (s'.ftable f).kind = .pipe p → p ∈ s.freelist
  cause : ∀ p w, s.pipeEnd p w = true → s'.pipeEnd p w = false → p ∉ s.freelist →
    ∃ f, (s.ftable f).kind = .pipe p ∧ (s.ftable f).writable = w ∧ (s'.ftable f).kind = .none

/-- After new files have been made, files are released. -/
theorem Lets.sheds (h : Lets s s1) (h' : Sheds s1 s') : Lets s s' where
  file f hf := by
    rcases h.file f hf with ⟨hk, hw⟩ | ⟨hk, hend⟩
    · rw [← hk, ← hw]
      rcases h'.file f with hk' | hk'
      · exact .inl ⟨hk', h'.writable f⟩
      · exact .inr hk'
    · refine .inr ⟨?_, fun p hp => h'.shut _ _ (hend p hp)⟩
      rcases h'.file f with hk' | ⟨hk', -⟩
      · rw [hk', hk]
      · exact hk'
  fresh f p hnone hp := by
    rcases h'.file f with hk' | ⟨hk', -⟩
    · exact h.fresh f p hnone (hk' ▸ hp)
    · rw [hk'] at hp
      contradiction
  cause p w ht hf hfree := by
    cases hmid : s1.pipeEnd p w with
    | false =>
      obtain ⟨f, hk, hw, hnone⟩ := h.cause p w ht hmid hfree
      refine ⟨f, hk, hw, ?_⟩
      rcases h'.file f with hk' | ⟨hk', -⟩
      · rw [hk', hnone]
      · exact hk'
    | true =>
      obtain ⟨f, hk, hw, hnone⟩ := h'.cause p w hmid hf
      have hopen : (s.ftable f).kind ≠ .none := fun hn => hfree (h.fresh f p hn hk)
      rcases h.file f hopen with ⟨hk₁, hw1⟩ | ⟨hk₁, -⟩
      · exact ⟨f, hk₁ ▸ hk, hw1 ▸ hw, hnone⟩
      · rw [hk] at hk₁
        contradiction

theorem filealloc_eq (h : s.filealloc = some (s', f)) : (s.ftable f).ref = 0 ∧
    s' = { s with ftable := update s.ftable f { s.ftable f with ref := 1 } } := by
  unfold filealloc at h
  split at h
  · contradiction
  · next g hg =>
    cases h
    exact ⟨by simpa using List.find?_some hg, rfl⟩

theorem RefCounted.filealloc (h : RefCounted fs is s) (ha : s.filealloc = some (s', f)) :
    RefCounted (f :: fs) is s' := by
  obtain ⟨href, rfl⟩ := filealloc_eq ha
  refine h.setRef one_pos ?_
  have hmade := h.file.made f
  rwa [show (File.ref ∘ s.ftable) f + 1 = 1 by simp [href]] at hmade

variable {k : FileKind} {w : Bool}

theorem RefCounted.setKind {is' : List InodeId} (h : RefCounted fs is s)
    (hpos : 0 < (s.ftable f).ref) (hkind : k ≠ .none)
    (hinode : Balanced (Inode.ref ∘ s.icache) (update s.inodeRefs (.inl f) k.inode?) is') :
    RefCounted fs is' { s with
      ftable := update s.ftable f { s.ftable f with kind := k, writable := w } } where
  file := by
    rw [comp_update]
    have hsame : update (File.ref ∘ s.ftable) f (s.ftable f).ref = File.ref ∘ s.ftable :=
      update_eq_self f (File.ref ∘ s.ftable)
    rw [hsame]
    exact h.file
  inode := by
    convert hinode using 1
    unfold inodeRefs
    rw [Sum.update_elim_inl]
    congr 1
    funext g
    by_cases hg : g = f
    · simp [hg]
    · simp [hg]
  closed g hg := by
    by_cases hgf : g = f
    · subst hgf
      simp only [update_self] at hg
      omega
    · simp only [update_of_ne hgf] at hg ⊢
      exact h.closed g hg
  typed g hg := by
    show holders s.fds g = 0
    by_cases hgf : g = f
    · subst hgf
      simp only [update_self] at hg
      exact absurd hg hkind
    · simp only [update_of_ne hgf] at hg
      exact h.typed g hg
  idle := h.idle

theorem RefCounted.setPipe {q : Frame} (h : RefCounted fs is s)
    (hpos : 0 < (s.ftable f).ref) (hkind : (s.ftable f).kind = .none) :
    RefCounted fs is { s with
      ftable := update s.ftable f
        { s.ftable f with kind := .pipe q, writable := w } } := by
  have hplace : s.inodeRefs (.inl f) = none := by simp [inodeRefs, hkind, FileKind.inode?]
  have hsame : update s.inodeRefs (.inl f) (FileKind.pipe q).inode? = s.inodeRefs := by
    show update s.inodeRefs (.inl f) none = s.inodeRefs
    conv_lhs => rw [← hplace, update_eq_self]
  exact h.setKind hpos (by simp) (hsame.symm ▸ h.inode)

theorem Lets.setKind (h : Lets s s1)
    (hnone : (s.ftable f).kind = .none) (hpipe : ∀ p, k = .pipe p → p ∈ s.freelist) :
    Lets s { s1 with
      ftable := update s1.ftable f { s1.ftable f with kind := k, writable := w } } where
  file g hg := by
    have hgf : g ≠ f := fun heq => hg (heq ▸ hnone)
    simp only [update_of_ne hgf]
    exact h.file g hg
  fresh g p hg hp := by
    by_cases hgf : g = f
    · subst hgf
      simp only [update_self] at hp
      exact hpipe p hp
    · simp only [update_of_ne hgf] at hp
      exact h.fresh g p hg hp
  cause p w' ht hf hfree := by
    obtain ⟨g, hk, hw, hg⟩ := h.cause p w' ht hf hfree
    have hgf : g ≠ f := by
      rintro rfl
      rw [hnone] at hk
      contradiction
    exact ⟨g, hk, hw, by simpa only [update_of_ne hgf] using hg⟩

theorem RefCounted.openPipe {q : Frame} {f0 f1 : FileId} (h : RefCounted [f1, f0] is s)
    (hne : f1 ≠ f0) (h0 : (s.ftable f0).kind = .none) (h1 : (s.ftable f1).kind = .none) :
    RefCounted [f1, f0] is (s.openPipe q f0 f1) := by
  have hpos : 0 < (s.ftable f0).ref := (h.perm (List.Perm.swap f0 f1 [])).file.pos_of_hand
  have hread := h.setPipe (q := q) (w := false) hpos h0
  have hwrite := hread.setPipe (f := f1) (q := q) (w := true) hread.file.pos_of_hand
    (by simpa [hne] using h1)
  exact ⟨hwrite.file, hwrite.inode, hwrite.closed, hwrite.typed, hwrite.idle⟩

end Kernel

/-! ## Runs -/

namespace Files

open Kernel

variable {s s' : Kernel}

/-- The descriptors that point to the file `f`. -/
def descriptors (s : Kernel) (f : FileId) : Finset (Slot × Fin NOFILE) :=
  Finset.univ.filter fun k => (s.proc k.1).ofile k.2 = some f

/-- Every open file is counted exactly, and has a type; every entry of the
inode cache is counted by the open files and current directories. -/
structure Counted (s : Kernel) : Prop where
  file : ∀ f, (s.ftable f).ref = (descriptors s f).card
  kind : ∀ f, (s.ftable f).kind = .none ↔ descriptors s f = ∅
  inode : ∀ ip, (s.icache ip).ref =
    (Finset.univ.filter fun f => (s.ftable f).kind = .inode ip).card +
      (Finset.univ.filter fun p => (s.proc p).cwd = some ip).card

theorem exists_reachableBy (guard : Kernel → Act → Prop) [∀ s a, Decidable (guard s a)]
    {P : Kernel → Prop} [DecidablePred P] (acts : List Act)
    (h : ((start (List.range' 1 400) (fun _ => false) smallProgram).toOption.bind fun s =>
      runFrom (guarded next guard) s acts).any (fun s => P s) = true) :
    ∃ s, ReachableBy guard s ∧ P s :=
  Reach.exists_of_boot (fun _ hs => ⟨_, _, _, eq_ok_of_toOption hs⟩) acts h

end Files
end Xv6

import Xv6.Smp.Cards

/-!
# Xv6.Smp.Section

What one step of a process on a CPU can do, when nobody ends other processes:
`exit()` is then called by processes without threads only, and what a process
has to do concerns itself and the entry it is filling.
-/

namespace Xv6

open Lib

namespace Kernel

variable {s s' : Kernel} {c : Slot}

/-- The entry that a call is filling. -/
def makes : List Instr → Option Slot
  | .fillChild np :: _ | .fillThread np :: _ | .ready np :: _ => some np
  | _ => none

/-- What the process `c` may have to do when nobody ends other processes. -/
inductive Calls (c : Slot) : List Instr → Prop where
  | none : Calls c []
  | fillChild (np : Slot) : Calls c [.fillChild np]
  | fillThread (np : Slot) : Calls c [.fillThread np]
  | readyChild (np : Slot) : Calls c [.ready np]
  | readyThread (np : Slot) : Calls c [.ready np, .share np]
  | share (np : Slot) : Calls c [.share np]
  | exit : Calls c [.close c, .die]
  | die : Calls c [.die]
  | threadExit (v : Nat) : Calls c [.close c, .threadDie v]
  | threadDie (v : Nat) : Calls c [.threadDie v]
  | join (t : Int) : Calls c [.join t]

/-- One step of the running process `c`, with `l` to do before and `l'` after. -/
inductive Section (c : Slot) (s : Kernel) : List Instr → Kernel → List Instr → Prop where
  /-- Nothing but wakeups. -/
  | quiet {l l' : List Instr} {k : Kernel} (h : Awake s k) (hl : ∀ t m, l ≠ .join t :: m)
      (hmakes : makes l' = none) (hdie : .die ∈ l' → .die ∈ l ∨ (s.proc c).tid = 0)
      (hthread : ∀ v, .threadDie v ∈ l' ↔ .threadDie v ∈ l) : Section c s l k l'
  /-- The start of `thread_exit(v)`. -/
  | exits {v : Nat} : Section c s [] s [.close c, .threadDie v]
  | yields {l : List Instr} :
      Section c s l (s.upd c fun x => { x with state := .runnable, timeQuantumUsed := 0 }) l
  /-- `c` goes to sleep: inside `thread_join(t)`, after a scan that found nothing. -/
  | sleeps {l : List Instr} {chan : Chan} (hmakes : makes l = none)
      (hl : ∀ t m, l = .join t :: m → chan = .proc c ∧ s.joinRetval c t = none ∧
        ∃ z, (s.proc z).parent = some c ∧ (s.proc z).tid = t) :
      Section c s l (s.sleepOn c chan) l
  /-- `thread_join(t)` returns -1. -/
  | fails {t : Int} (h : s.joinRetval c t = none) : Section c s [.join t] s []
  /-- `allocproc` takes the entry `np`, or takes it and gives it back. -/
  | allocs {np : Slot} {e : Card} {k : Kernel} {l' : List Instr}
      (hnp : (s.proc np).state = .unused) (h : CardAt s np e k) (htid : e.tid = 0)
      (hk : k.nextThreadId = s.nextThreadId)
      (hl : e.state = .embryo ∧ (l' = [.fillChild np] ∨ l' = [.fillThread np]) ∨
        e.state = .unused ∧ l' = []) : Section c s [] k l'
  /-- The entry `np` is filled, or given back. -/
  | fills {np : Slot} {e : Card} {k : Kernel} {l l' : List Instr}
      (hl : l = [.fillChild np] ∨ l = [.fillThread np]) (h : CardAt s np e k)
      (htid : e.tid = (s.proc np).tid ∧ k.nextThreadId = s.nextThreadId ∨
        e.state = .embryo ∧ e.tid = s.nextThreadId ∧ k.nextThreadId = s.nextThreadId + 1)
      (hl' : e.state = .embryo ∧ (l' = [] ∨ l' = [.ready np] ∨ l' = [.ready np, .share np]) ∨
        e.state = .unused ∧ l' = []) : Section c s l k l'
  | readies {np : Slot} {l' : List Instr} (hl : l' = [] ∨ l' = [.share np]) :
      Section c s (.ready np :: l') (s.ready np) l'
  /-- `clear_proc(p)` in `wait`, or in a `thread_join` that returns 0. -/
  | clears {p : Slot} {k : Kernel} {l : List Instr} (hz : (s.proc p).state = .zombie)
      (h : CardAt s p (s.proc p).card.cleared k) (hk : k.nextThreadId = s.nextThreadId)
      (hl : l = [] ∨ l = [.join (s.proc p).tid] ∧ (s.proc p).parent = some c ∧
        s.joinRetval c (s.proc p).tid = some (s.proc p).threadReturn) : Section c s l k []
  /-- `c` ends. -/
  | buries {v : Nat} {k : Kernel} {l : List Instr} (h : Buried s c v k)
      (hl : l = [.die] ∨ l = [.threadDie v]) : Section c s l k []

theorem section_of_run {x : Instr} {l m : List Instr} (hl : Calls c (x :: l))
    (hmakes : ∀ np, makes (x :: l) = some np → (s.proc np).state = .embryo)
    (h : x.run s c = .ok (s', m)) : Section c s (x :: l) s' (m ++ l) ∧ Calls c (m ++ l) := by
  cases hl with
  | fillChild np =>
    obtain ⟨⟨s1, ok⟩, h1, h⟩ := bind_eq_ok.mp h
    cases h
    obtain ⟨e, hat, htid, hk, hst⟩ := cardAt_fillChild (hmakes np rfl) h1
    cases ok with
    | false => exact ⟨.fills (.inl rfl) hat (.inl ⟨htid, hk⟩) (.inr ⟨hst, rfl⟩), .none⟩
    | true =>
      exact ⟨.fills (.inl rfl) hat (.inl ⟨htid, hk⟩) (.inl ⟨hst, .inr (.inl rfl)⟩),
        .readyChild np⟩
  | fillThread np =>
    obtain ⟨⟨s1, ok⟩, h1, h⟩ := bind_eq_ok.mp h
    cases h
    obtain ⟨e, hat, htid, hk, hst⟩ := cardAt_fillThread (hmakes np rfl) h1
    cases ok with
    | false => exact ⟨.fills (.inr rfl) hat (.inr ⟨hst, htid, hk⟩) (.inl ⟨hst, .inl rfl⟩), .none⟩
    | true =>
      exact ⟨.fills (.inr rfl) hat (.inr ⟨hst, htid, hk⟩) (.inl ⟨hst, .inr (.inr rfl)⟩),
        .readyThread np⟩
  | readyChild np =>
    cases h
    exact ⟨.readies (.inl rfl), .none⟩
  | readyThread np =>
    cases h
    exact ⟨.readies (.inr rfl), .share np⟩
  | share np =>
    obtain ⟨s1, h1, h⟩ := bind_eq_ok.mp h
    cases h
    exact ⟨.quiet (sharesOnly_shareWithThread h1).awake (by simp) rfl (by simp) (by simp), .none⟩
  | exit =>
    obtain ⟨s1, h1, h⟩ := bind_eq_ok.mp h
    cases h
    exact ⟨.quiet (filesOnly_closeAll c h1).awake (by simp) rfl (by simp) (by simp), .die⟩
  | die =>
    obtain ⟨s1, h1, h⟩ := bind_eq_ok.mp h
    cases h
    exact ⟨.buries (buried_bury h1) (.inl rfl), .none⟩
  | threadExit v =>
    obtain ⟨s1, h1, h⟩ := bind_eq_ok.mp h
    cases h
    exact ⟨.quiet (filesOnly_closeAll c h1).awake (by simp) rfl (by simp) (by simp), .threadDie v⟩
  | threadDie v =>
    obtain ⟨s1, h1, h⟩ := bind_eq_ok.mp h
    cases h
    exact ⟨.buries (buried_threadBury h1) (.inr rfl), .none⟩
  | join t =>
    obtain ⟨⟨s1, r⟩, h1, h⟩ := bind_eq_ok.mp h
    rcases threadJoin_section h1 with
      ⟨p, hz, rfl, hparent, hret, hat, hk, rfl⟩ | ⟨hnone, ⟨rfl, rfl⟩ | ⟨rfl, rfl, hkid⟩⟩
    · cases h
      exact ⟨.clears hz hat hk (.inr ⟨rfl, hparent, hret⟩), .none⟩
    · cases h
      exact ⟨.fails hnone, .none⟩
    · cases h
      refine ⟨.sleeps rfl fun t' m' heq => ?_, .join t⟩
      cases heq
      exact ⟨rfl, hnone, hkid⟩

/-- The start of a call; `exit` is called by a process without threads. -/
theorem section_of_call {op : Syscall} {l : List Instr}
    (hexit : op = .exit → (s.proc c).tid = 0 ∧ (s.proc c).numOfThreads = 0)
    (h : s.beginCall c op = .ok (s', l)) : Section c s [] s' l ∧ Calls c l := by
  -- calls with one critical section
  have hquiet : Awake s s' → l = [] → Section c s [] s' l ∧ Calls c l := by
    rintro ha rfl
    exact ⟨.quiet ha (by simp) rfl (by simp) (by simp), .none⟩
  have hfull : s.allocproc = (s', none) → l = [] → Section c s [] s' l ∧ Calls c l := by
    rintro hnone rfl
    rcases cardAt_allocproc_none hnone with rfl | ⟨np, e, hnp, hat, hst, htid, hk⟩
    · exact hquiet (.refl _) rfl
    · exact ⟨.allocs hnp hat htid hk (.inr ⟨hst, rfl⟩), .none⟩
  cases op with
  | fork =>
    simp only [beginCall] at h
    split at h
    · cases h
      exact hquiet (.refl s) rfl
    split at h
    · next s1 hs1 =>
      cases h
      exact hfull hs1 rfl
    · next s1 np hs1 =>
      cases h
      obtain ⟨hnp, e, hat, hst, htid, hk⟩ := cardAt_allocproc hs1
      exact ⟨.allocs hnp hat htid hk (.inl ⟨hst, .inl rfl⟩), .fillChild np⟩
  | threadCreate =>
    simp only [beginCall] at h
    split at h
    · next s1 hs1 =>
      cases h
      exact hfull hs1 rfl
    · next s1 np hs1 =>
      cases h
      obtain ⟨hnp, e, hat, hst, htid, hk⟩ := cardAt_allocproc hs1
      exact ⟨.allocs hnp hat htid hk (.inl ⟨hst, .inr rfl⟩), .fillThread np⟩
  | threadExit v =>
    simp only [beginCall] at h
    split at h
    · contradiction
    · cases h
      exact ⟨.exits, .threadExit v⟩
  | threadJoin t =>
    cases h
    exact ⟨.quiet (.refl s) (by simp) rfl (by simp) (by simp), .join t⟩
  | exit =>
    obtain ⟨htid, hnum⟩ := hexit rfl
    obtain ⟨l', h1, h⟩ := bind_eq_ok.mp h
    cases h
    unfold beginExit at h1
    split at h1
    · contradiction
    · rw [if_pos ⟨htid, hnum⟩] at h1
      cases h1
      exact ⟨.quiet (.refl s) (by simp) rfl (fun _ => .inr htid) (by simp), .exit⟩
  | exec file =>
    obtain ⟨s1, h1, h⟩ := bind_eq_ok.mp h
    cases h
    obtain ⟨r, h1⟩ := map_fst_eq_ok h1
    exact hquiet (exec_samePart ignoresMemory_card h1).awake rfl
  | sbrk n =>
    obtain ⟨s1, h1, h⟩ := bind_eq_ok.mp h
    cases h
    obtain ⟨r, h1⟩ := map_fst_eq_ok h1
    exact hquiet (growproc_samePart ignoresMemory_card h1).awake rfl
  | setCpuShare required =>
    obtain ⟨s1, h1, h⟩ := bind_eq_ok.mp h
    cases h
    obtain ⟨r, h1⟩ := map_fst_eq_ok h1
    exact hquiet (sharesOnly_setCpuShare h1).awake rfl
  | wait =>
    obtain ⟨s1, h1, h⟩ := bind_eq_ok.mp h
    cases h
    obtain ⟨r, h1⟩ := map_fst_eq_ok h1
    rcases wait_cases h1 with ⟨p, pid, -, hz, h2⟩ | rfl | ⟨chan, rfl⟩
    · obtain ⟨hat, hk⟩ := cardAt_clearProc h2
      exact ⟨.clears hz hat hk (.inl rfl), .none⟩
    · exact hquiet (.refl _) rfl
    · exact ⟨.sleeps rfl (by simp), .none⟩
  | kill pid =>
    cases h
    exact hquiet (awake_kill s pid) rfl

end Kernel
end Xv6

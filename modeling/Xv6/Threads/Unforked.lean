import Xv6.Book.Step

/-!
# Xv6.Threads.Unforked

`proc_forked_in_thread` is a null pointer everywhere, in every state that the
kernel can reach, because `fork` turns threads away.
-/

namespace Xv6

open Lib

/-- No entry holds a process that was forked in a thread. -/
def Tally.Unforked (t : Tally) : Prop := ∀ q, (t.entry q).forkedIn = none

theorem Tally.Unforked.set {t : Tally} (h : t.Unforked) (p : Slot) {e : ThreadCount}
    (he : e.forkedIn = none) : (t.set p e).Unforked := fun q => by
  by_cases hq : q = p
  · rw [hq, Tally.set_entry_same]
    exact he
  · rw [Tally.set_entry_of_ne t e hq]
    exact h q

theorem Tally.Unforked.add {t : Tally} (h : t.Unforked) (p : Slot) (n : Int) :
    (t.add p n).Unforked := h.set p (h p)

namespace Kernel

variable {s s' : Kernel}

/-- No thread has forked. -/
def Unforked (s : Kernel) : Prop := s.tally.Unforked

theorem Unforked.of_tally {t : Tally} (ht : s'.tally = t) (hu : t.Unforked) : s'.Unforked := by
  unfold Unforked
  rw [ht]
  exact hu

section

variable (hs : s.Unforked)
include hs

theorem unforked_exit {c : Slot} (h : s.exit c = .ok s') : s'.Unforked := by
  refine exit_keeps (P := Unforked) (fun hd hk => .of_tally hd.tally hk) (fun hr hk => ?_)
    (fun hr hk => .of_tally (clearProc_tally hr) (hk.set _ rfl))
    (fun k hk => .of_tally (upd_tally_eq k c rfl) hk) h hs
  obtain ⟨m, -, ht, -⟩ := removeThreadStack_tally hr
  exact .of_tally ht (hk.add m _)

theorem unforked_next {e : Event} (h : s.next e = some s') : s'.Unforked := by
  cases step_of_next h with
  | quiet hb hl ht => exact .of_tally ht hs
  | @retract _ _ np g hnp hb hl ht => exact .of_tally ht (hs.set np rfl)
  | @fork _ c np i g d free free' hc hnp hi hb htid ht => exact .of_tally ht (hs.set np rfl)
  | exec hc hi hb ht => exact .of_tally ht hs
  | sbrk hb ht => exact .of_tally ht hs
  | @threadCreate _ c np i g d free free' top ok hc hnp hi hb hcount =>
    rcases hcount with ⟨-, ht⟩ | ⟨-, -, m, -, ht⟩
    · exact .of_tally ht (hs.set np rfl)
    · exact .of_tally ht (Tally.Unforked.add (hs.set np rfl) m 1)
  | threadExit hc hinit hb hl ht => exact .of_tally ht hs
  | @threadJoin _ _ c p thread hz hb hc hparent htid ht =>
    exact .of_tally ht (Tally.Unforked.set (hs.add c _) p rfl)
  | @wait _ c p hz hb hc hkid ht => exact .of_tally ht (hs.set p rfl)
  | exit hc h => exact unforked_exit hs h

end

theorem unforked_of_reachable (h : s.Reachable) (p : Slot) :
    (s.proc p).procForkedInThread = none := by
  have hunforked : s.Unforked := by
    refine h.inv Unforked (fun s hs => ?_) fun _ _ _ hs _ hn => unforked_next hs hn
    exact .of_tally (started_tally hs) fun _ => rfl
  exact hunforked p

end Kernel
end Xv6

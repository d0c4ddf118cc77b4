import EmSysLab.Assignment06.AnalysisThread
import EmSysLab.Assignment06.AnalyzeFrame

/-!
# Shutdown of the analysis thread

`main` clears `running` and broadcasts without the mutex. A thread that has read `running`
as set and has not yet entered its wait is not blocked at that moment, so the broadcast
passes it by and it blocks afterwards, with nobody left to wake it. Every other
interleaving ends well.
-/
namespace EmSysLab.Assignment06

open Interleaving

variable {N F : ℕ}

namespace Process

variable {s t : Process N F}

/-- `main` waits for a thread that nothing will wake. -/
def Stranded (s : Process N F) : Prop := s.main = .join ∧ s.thread = .blocked

/-- A broadcast is not sent between the evaluation of the wait condition and the wait. -/
def BroadcastClear (s : Process N F) : Label F → Prop
  | .main => s.main = .broadcast → s.thread ≠ .enterWait
  | _ => True

/-- `running` is cleared and the thread will not wait again. -/
structure Settled (s : Process N F) : Prop where
  running : s.running = false
  not_waiting : ¬s.thread.waits

theorem Settled.not_stranded (h : s.Settled) : ¬s.Stranded := fun hs =>
  (ThreadPc.ne_of_not_waits h.not_waiting).2 hs.2

/-- A signal to a thread that has not stopped short of its wait. -/
theorem Settled.wake (hrunning : s.running = false) (hpc : s.thread ≠ .enterWait)
    (ring : FrameRing N F) (main : MainPc) :
    Settled { s with ring := ring, thread := s.thread.wake, main := main } :=
  ⟨hrunning, ThreadPc.not_waits_wake hpc⟩

/-- A broadcast that does not meet the gap settles the thread. -/
theorem settled_broadcast (hs : s.main ≠ .mainLoop → s.running = false)
    (hmain : s.main = .broadcast) (hpc : s.thread ≠ .enterWait) :
    Settled { s with thread := s.thread.wake, main := .join } :=
  Settled.wake (hs (by rw [hmain]; decide)) hpc s.ring _

variable [NeZero N]

namespace Settled

/-- With `running` cleared a failed search ends the loop. -/
theorem analysisThread (hs : s.Settled) (h : s.analysisThread = some t) : t.Settled := by
  have hrunning := (analysisThread_frame h).1.trans hs.running
  cases hpc : s.thread with
  | evaluate =>
    rcases evaluate_cases hpc h with ⟨-, rfl⟩ | ⟨i, -, -, rfl⟩
    · rw [if_neg (by rw [hs.running]; decide)]
      exact ⟨hrunning, id⟩
    · exact ⟨hrunning, id⟩
  | enterWait => exact absurd hpc (ThreadPc.ne_of_not_waits hs.not_waiting).1
  | _ =>
    simp only [Process.analysisThread, hpc] at h
    try split at h
    all_goals cases h
    all_goals exact ⟨hrunning, id⟩

theorem step (hs : s.Settled) {l : Label F} (h : s.step l = some t) : t.Settled := by
  obtain ⟨hentering, hblocked⟩ := ThreadPc.ne_of_not_waits hs.not_waiting
  cases l with
  | newSample x =>
    rcases onNewSample_cases h with rfl | ⟨-, rfl⟩
    · exact hs
    · exact Settled.wake hs.running hentering _ s.main
  | analysisThread => exact hs.analysisThread h
  | spuriousWakeUp =>
    simp only [Process.step, if_neg hblocked] at h
    cases h
  | main =>
    rcases mainThread_cases h with ⟨-, rfl⟩ | ⟨-, rfl⟩ | ⟨-, rfl⟩
    · exact ⟨rfl, hs.not_waiting⟩
    · exact Settled.wake hs.running hentering s.ring _
    · exact ⟨hs.running, hs.not_waiting⟩

theorem reachable (hs : s.Settled) (h : Reachable Process.step s t) : t.Settled :=
  h.invariant (fun _ _ _ _ hstep hs => hs.step hstep) hs

end Settled

/-- `main` leaves its loop by clearing `running`, which nothing sets again. -/
theorem running_step {l : Label F} (hs : s.main ≠ .mainLoop → s.running = false)
    (h : s.step l = some t) : t.main ≠ .mainLoop → t.running = false := by
  rcases main_frame h with rfl | ⟨hrunning, hmain⟩
  · rcases mainThread_cases h with ⟨-, rfl⟩ | ⟨hmain, rfl⟩ | ⟨hmain, rfl⟩
    · exact fun _ => rfl
    · exact fun _ => hs (by rw [hmain]; decide)
    · exact fun _ => hs (by rw [hmain]; decide)
  · rw [hrunning, hmain]
    exact hs

theorem running_reachable (hs : s.Start) (h : Reachable step s t) :
    t.main ≠ .mainLoop → t.running = false := by
  refine h.invariant (P := fun t => t.main ≠ .mainLoop → t.running = false)
    (fun _ _ _ _ hstep hs => running_step hs hstep) fun hmain => ?_
  exact absurd hs.main hmain

/-- Past a broadcast that did not meet the gap the thread is settled. -/
theorem settled_of_reaches (hs : s.Start) (h : Reaches step BroadcastClear s t) :
    t.main = .join ∨ t.main = .joined → t.Settled := by
  induction h with
  | refl =>
    intro hmain
    rw [hs.main] at hmain
    rcases hmain with hmain | hmain
    · cases hmain
    · cases hmain
  | @tail t u hreach hlast ih =>
    obtain ⟨l, hclear, hstep⟩ := hlast
    have hrunning := running_reachable hs (Reaches.reachable hreach)
    rcases main_frame hstep with rfl | ⟨-, hmain⟩
    · rcases mainThread_cases hstep with ⟨-, rfl⟩ | ⟨hmain, rfl⟩ | ⟨hmain, rfl⟩
      · intro hu
        rcases hu with hu | hu
        · cases hu
        · cases hu
      · intro _
        exact settled_broadcast hrunning hmain (hclear hmain)
      · intro _
        exact (ih (.inl hmain)).step hstep
    · intro hu
      rw [hmain] at hu
      exact (ih hu).step hstep

end Process

/-! ## When the shutdown is safe -/

open Process

variable [NeZero N]

/-- **Shutdown.** No run strands the thread whose broadcast is clear of its wait, and a
broadcast strands it in no continuation exactly if it is. -/
theorem shutdown_iff (s : Process N F) (hs : s.Start) :
    (∀ t, Reaches step BroadcastClear s t → ¬t.Stranded) ∧
      ∀ t u, Reachable step s t → t.main = .broadcast → t.step .main = some u →
        ((∀ v, Reachable step u v → ¬v.Stranded) ↔ t.thread ≠ .enterWait) := by
  constructor
  · intro t ht hstranded
    exact (settled_of_reaches hs ht (.inl hstranded.1)).not_stranded hstranded
  · intro t u ht hmain hu
    have hrunning := running_reachable hs ht
    simp only [step, mainThread, hmain] at hu
    obtain rfl := Option.some.inj hu
    constructor
    · intro hsafe hpc
      -- the wake-up is lost and the thread blocks
      have hblocks : Process.step { t with thread := t.thread.wake, main := .join } .analysisThread =
          some { t with locked := false, thread := .blocked, main := .join } := by
        rw [hpc]
        rfl
      exact hsafe _ (.single trivial hblocks) ⟨rfl, rfl⟩
    · intro hpc v hv
      exact ((settled_broadcast hrunning hmain hpc).reachable hv).not_stranded

/-- The program as `main` starts it. -/
def appsink : Process 3 (frameSize width height) := initial 3 (frameSize width height)

/-- The thread blocks, then `main` clears `running`; the broadcast wakes the thread. -/
theorem shutdown_blocked : ∃ t, runs step appsink (List.replicate 4 .analysisThread ++ [.main]) = some t ∧
    t.main = .broadcast ∧ ∀ u v, t.step .main = some u → Reachable step u v → ¬v.Stranded := by
  have hrun : (runs step appsink (List.replicate 4 .analysisThread ++ [.main])).map
      (fun t => (t.main, t.thread)) = some (.broadcast, .blocked) := by
    decide
  obtain ⟨t, ht, hpcs⟩ := Option.map_eq_some_iff.mp hrun
  obtain ⟨hmain, hpc⟩ := Prod.mk.inj hpcs
  refine ⟨t, ht, hmain, fun u v hu hv => ?_⟩
  refine ((shutdown_iff appsink start_initial).2 t u (reachable_of_runs ht) hmain hu).mpr ?_ v hv
  rw [hpc]
  exact nofun

/-- The thread finds no frame and `running` still set; `main` clears it and broadcasts before
the thread blocks. -/
theorem shutdown_strands : ∃ t,
    runs step appsink [.analysisThread, .analysisThread, .analysisThread, .main, .main,
      .analysisThread] = some t ∧ Reachable step appsink t ∧ t.Stranded := by
  have hrun : (runs step appsink [.analysisThread, .analysisThread, .analysisThread, .main, .main,
      .analysisThread]).map (fun t => (t.main, t.thread)) = some (.join, .blocked) := by
    decide
  obtain ⟨t, ht, hpcs⟩ := Option.map_eq_some_iff.mp hrun
  exact ⟨t, ht, reachable_of_runs ht, Prod.mk.inj hpcs⟩

end EmSysLab.Assignment06

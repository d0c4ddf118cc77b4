import EmSysLab.Assignment06.AnalysisThread

/-!
# No frame wake-up is lost

A signal sent while the analysis thread is busy is forgotten. What makes up for it is the
search under the mutex before each wait: between an evaluation that found no ready buffer
and the release of the mutex no callback can run, and once the thread is blocked the first
stored frame wakes it.
-/
namespace EmSysLab.Assignment06

open Interleaving

namespace ThreadPc

variable {N : ℕ}

/-- The loop has ended without a buffer. -/
def endsNull : ThreadPc N → Prop
  | .testStopped none => True
  | _ => False

/-- The thread is about to analyse the frame in no buffer. -/
def atNull : ThreadPc N → Prop
  | .unlock none => True
  | .analyse none => True
  | _ => False

end ThreadPc

variable {N F : ℕ}

namespace Process

variable {s t : Process N F}

/-- Invariant of every interleaving. -/
structure Wellformed (s : Process N F) : Prop where
  locked : s.locked = s.thread.holdsMutex
  no_ready : s.thread.waits → ∀ i, (s.ring.buffers i).state ≠ .ready
  stopped : s.thread.endsNull → s.running = false
  not_null : ¬s.thread.atNull

namespace Wellformed

/-- A woken thread is past its wait, and any other stands where it stood. -/
theorem wake (hs : s.Wellformed) {ring : FrameRing N F}
    (hring : s.thread.wake = s.thread → s.thread.waits → ring = s.ring) :
    Wellformed { s with ring := ring, thread := s.thread.wake } := by
  rcases s.thread.wake_cases with ⟨hpc, hwake⟩ | hwake
  · have hlocked := hs.locked
    rw [hpc] at hlocked
    rw [hwake]
    exact ⟨hlocked, False.elim, False.elim, id⟩
  · rw [hwake]
    refine ⟨hs.locked, fun hwaits => ?_, hs.stopped, hs.not_null⟩
    change ∀ i, (ring.buffers i).state ≠ .ready
    rw [hring hwake hwaits]
    exact hs.no_ready hwaits

theorem mainThread (hs : s.Wellformed) (h : s.mainThread = some t) : t.Wellformed := by
  rcases mainThread_cases h with ⟨-, rfl⟩ | ⟨-, rfl⟩ | ⟨-, rfl⟩
  · exact ⟨hs.locked, hs.no_ready, fun _ => rfl, hs.not_null⟩
  · obtain ⟨hlocked, hready, hstopped, hnull⟩ := hs.wake fun _ _ => rfl
    exact ⟨hlocked, hready, hstopped, hnull⟩
  · exact ⟨hs.locked, hs.no_ready, hs.stopped, hs.not_null⟩

variable [NeZero N]

theorem start (h : s.Start) : s.Wellformed := by
  constructor
  · rw [h.locked, h.thread]
    rfl
  · rw [h.thread]
    exact False.elim
  · rw [h.thread]
    exact False.elim
  · rw [h.thread]
    exact id

/-- A callback runs while the mutex is free, hence not between search and wait. -/
theorem onNewSample (hs : s.Wellformed) {x : NewSample F} (h : s.onNewSample x = some t) :
    t.Wellformed := by
  rcases onNewSample_cases h with rfl | ⟨hfree, rfl⟩
  · exact hs
  · apply hs.wake
    intro hwake hwaits
    cases hpc : s.thread with
    | enterWait =>
      have hlocked := hs.locked
      rw [hfree, hpc] at hlocked
      cases hlocked
    | blocked =>
      rw [hpc] at hwake
      cases hwake
    | _ =>
      rw [hpc] at hwaits
      exact hwaits.elim

theorem analysisThread (hs : s.Wellformed) (h : s.analysisThread = some t) : t.Wellformed := by
  have hlocked := hs.locked
  have hready := hs.no_ready
  have hnull := hs.not_null
  cases hpc : s.thread with
  | evaluate =>
    rw [hpc] at hlocked
    rcases evaluate_cases hpc h with ⟨hnone, rfl⟩ | ⟨i, -, -, rfl⟩
    · cases hrunning : s.running with
      | true => exact ⟨hlocked, fun _ => hnone, False.elim, id⟩
      | false => exact ⟨hlocked, False.elim, fun _ => rfl, id⟩
    · exact ⟨hlocked, False.elim, False.elim, id⟩
  | enterWait =>
    rw [hpc] at hready
    simp only [Process.analysisThread, hpc] at h
    cases h
    exact ⟨rfl, hready, False.elim, id⟩
  | testStopped readBuffer =>
    have hstopped := hs.stopped
    rw [hpc] at hlocked hstopped
    simp only [Process.analysisThread, hpc] at h
    cases h
    cases hrunning : s.running with
    | false => exact ⟨hlocked, False.elim, False.elim, id⟩
    | true =>
      refine ⟨hlocked, False.elim, False.elim, ?_⟩
      cases readBuffer with
      | none => exact absurd ((hstopped trivial).symm.trans hrunning) (by decide)
      | some i => exact id
  | unlock readBuffer =>
    rw [hpc] at hnull
    simp only [Process.analysisThread, hpc] at h
    cases h
    refine ⟨rfl, False.elim, False.elim, ?_⟩
    cases readBuffer with
    | none => exact hnull
    | some i => exact id
  | analyse readBuffer =>
    rw [hpc] at hlocked hnull
    cases readBuffer with
    | none => exact (hnull trivial).elim
    | some i =>
      simp only [Process.analysisThread, hpc] at h
      cases h
      exact ⟨hlocked, False.elim, False.elim, id⟩
  | _ =>
    rw [hpc] at hlocked
    simp only [Process.analysisThread, hpc] at h
    try split at h
    all_goals cases h
    all_goals first
      | exact ⟨rfl, False.elim, False.elim, id⟩
      | exact ⟨hlocked, False.elim, False.elim, id⟩

theorem step (hs : s.Wellformed) {l : Label F} (h : s.step l = some t) : t.Wellformed := by
  cases l with
  | newSample x => exact hs.onNewSample h
  | analysisThread => exact hs.analysisThread h
  | spuriousWakeUp =>
    have hlocked := hs.locked
    simp only [Process.step] at h
    split at h
    · rename_i hpc
      rw [hpc] at hlocked
      cases h
      exact ⟨hlocked, False.elim, False.elim, id⟩
    · cases h
  | main => exact hs.mainThread h

theorem reachable (hs : s.Start) (h : Reachable Process.step s t) : t.Wellformed :=
  h.invariant (fun _ _ _ _ hstep hs => hs.step hstep) (start hs)

end Wellformed

end Process

/-! ## Whole runs -/

open Process

/-- What the thread and the callback promise each other. -/
structure NoLostWakeUp (s : Process N F) [NeZero N] : Prop where
  /-- Blocked with no wake-up pending, the thread misses no frame. -/
  blocked : s.thread = .blocked → ∀ i, (s.ring.buffers i).state ≠ .ready
  /-- It leaves its wait loop with a buffer that was ready and that it now reads. -/
  leaves : ∀ t, s.running = true → s.thread = .evaluate → s.step .analysisThread = some t →
    t.thread = .enterWait ∨ ∃ i, t.thread = .testStopped (some i) ∧
      (s.ring.buffers i).state = .ready ∧ (t.ring.buffers i).state = .reading
  /-- From there until it frees the buffer it is the only one being read. -/
  reading_iff : ∀ i, (s.ring.buffers i).state = .reading ↔ s.thread.held = some i
  /-- No frame is looked for behind a NULL pointer. -/
  not_null : s.thread ≠ .analyse none

/-- **No frame wake-up is lost**, in any interleaving of callbacks, the thread and `main`, with
spurious wake-ups. -/
theorem no_lost_wakeUp [NeZero N] (s t : Process N F) (hs : s.Start)
    (h : Reachable Process.step s t) : NoLostWakeUp t := by
  have hwf := Wellformed.reachable hs h
  constructor
  · intro hpc
    apply hwf.no_ready
    rw [hpc]
    trivial
  · intro u hrunning hpc hstep
    rcases evaluate_cases hpc hstep with ⟨-, rfl⟩ | ⟨i, hready, -, rfl⟩
    · exact .inl (if_pos hrunning)
    · refine .inr ⟨i, rfl, hready, ?_⟩
      change ((t.ring.setState i .reading).buffers i).state = .reading
      rw [FrameRing.setState_same]
  · exact reading_iff hs h
  · intro hpc
    apply hwf.not_null
    rw [hpc]
    trivial

/-- The thread blocks; a frame wakes it and it reserves the buffer. -/
def wakes : List (Label 1) :=
  List.replicate 4 .analysisThread ++
    [.newSample (byteSample 7), .analysisThread, .analysisThread]

theorem no_lost_wakeUp_wakes : ∃ t, runs step (initial 3 1) wakes = some t ∧
    t.thread = .testStopped (some 0) ∧ NoLostWakeUp t := by
  have hrun : (runs step (initial 3 1) wakes).map Process.thread = some (.testStopped (some 0)) := by
    decide
  obtain ⟨t, ht, hpc⟩ := Option.map_eq_some_iff.mp hrun
  exact ⟨t, ht, hpc, no_lost_wakeUp _ t start_initial (reachable_of_runs ht)⟩

end EmSysLab.Assignment06

import EmSysLab.Assignment06.RingRefinement
import EmSysLab.Interleaving.Reaches

/-!
# The analysis thread of assignment_06

`gstreamer_appsink.c` at the granularity of its locks: `analysis_thread` takes and releases
the mutex, evaluates its wait condition and blocks in separate steps, `main` clears
`running` and broadcasts in two. The capture callback does all its work with the mutex
held, so a call is one step, taken when the mutex is free. Only the analysis thread ever
waits on the condition variable.
-/
namespace EmSysLab.Assignment06

open Fifo Interleaving

/-- Where the analysis thread stands, with its `read_buffer` while that matters. -/
inductive ThreadPc (N : ℕ) where
  | loopTest
  | lock
  | evaluate
  | enterWait
  | blocked
  | woken
  | testStopped (readBuffer : Option (Fin N))
  | unlockStopped (readBuffer : Option (Fin N))
  | unlock (readBuffer : Option (Fin N))
  | analyse (readBuffer : Option (Fin N))
  | lockFree (i : Fin N)
  | setFree (i : Fin N)
  | unlockFree
  | exited (readBuffer : Option (Fin N))
  deriving DecidableEq

inductive MainPc where
  | mainLoop
  | broadcast
  | join
  | joined
  deriving DecidableEq

/-- What the threads share, and where they stand. -/
structure Process (N F : ℕ) where
  ring : FrameRing N F
  locked : Bool
  running : Bool
  thread : ThreadPc N
  main : MainPc

/-- Whose step it is. Blocked threads may also wake for no reason. -/
inductive Label (F : ℕ) where
  | newSample (x : NewSample F)
  | analysisThread
  | spuriousWakeUp
  | main

namespace ThreadPc

variable {N : ℕ}

/-- A signal or a broadcast wakes the thread if it is blocked and is forgotten otherwise. -/
def wake : ThreadPc N → ThreadPc N
  | .blocked => .woken
  | pc => pc

/-- The buffer the thread has reserved and not yet freed. -/
def held : ThreadPc N → Option (Fin N)
  | .testStopped readBuffer => readBuffer
  | .unlockStopped readBuffer => readBuffer
  | .unlock readBuffer => readBuffer
  | .analyse readBuffer => readBuffer
  | .exited readBuffer => readBuffer
  | .lockFree i => some i
  | .setFree i => some i
  | _ => none

def holdsMutex : ThreadPc N → Bool
  | .evaluate => true
  | .enterWait => true
  | .testStopped _ => true
  | .unlockStopped _ => true
  | .unlock _ => true
  | .setFree _ => true
  | .unlockFree => true
  | _ => false

@[simp] theorem held_wake (pc : ThreadPc N) : pc.wake.held = pc.held := by
  cases pc <;> rfl

/-- The search has failed and nothing has woken the thread since. -/
def waits : ThreadPc N → Prop
  | .enterWait => True
  | .blocked => True
  | _ => False

/-- A signal reaches every waiting thread but the one that has not blocked yet. -/
theorem not_waits_wake {pc : ThreadPc N} (h : pc ≠ .enterWait) : ¬pc.wake.waits := by
  cases pc with
  | enterWait => exact absurd rfl h
  | _ => exact id

theorem ne_of_not_waits {pc : ThreadPc N} (h : ¬pc.waits) : pc ≠ .enterWait ∧ pc ≠ .blocked := by
  constructor
  · intro hpc
    apply h
    rw [hpc]
    trivial
  · intro hpc
    apply h
    rw [hpc]
    trivial

/-- Waking concerns a blocked thread only. -/
theorem wake_cases (pc : ThreadPc N) : pc = .blocked ∧ pc.wake = .woken ∨ pc.wake = pc := by
  cases pc with
  | blocked => exact .inl ⟨rfl, rfl⟩
  | _ => exact .inr rfl

end ThreadPc

variable {N F : ℕ}

namespace Process

/-- `main` from `g_main_loop_run` on. -/
def mainThread (s : Process N F) : Option (Process N F) :=
  match s.main with
  | .mainLoop => some { s with running := false, main := .broadcast }
  | .broadcast => some { s with thread := s.thread.wake, main := .join }
  | .join =>
    match s.thread with
    | .exited _ => some { s with main := .joined }
    | _ => none
  | .joined => none

/-- The coarser system sees the ring and the reserved buffer. -/
def toSystem (s : Process N F) : System N F where
  ring := s.ring
  thread := match s.thread.held with
    | some i => .analysing i
    | none => .waiting

theorem toSystem_congr {s t : Process N F} (hring : t.ring = s.ring)
    (hheld : t.thread.held = s.thread.held) :
    t.toSystem = s.toSystem := by
  unfold toSystem
  rw [hring, hheld]

/-- `main` only clears `running`, wakes the thread and moves on. -/
theorem mainThread_cases {s t : Process N F} (h : s.mainThread = some t) :
    (s.main = .mainLoop ∧ t = { s with running := false, main := .broadcast }) ∨
      (s.main = .broadcast ∧ t = { s with thread := s.thread.wake, main := .join }) ∨
      (s.main = .join ∧ t = { s with main := .joined }) := by
  unfold mainThread at h
  cases hmain : s.main with
  | mainLoop =>
    rw [hmain] at h
    exact .inl ⟨rfl, (Option.some.inj h).symm⟩
  | broadcast =>
    rw [hmain] at h
    exact .inr (.inl ⟨rfl, (Option.some.inj h).symm⟩)
  | join =>
    rw [hmain] at h
    simp only at h
    split at h
    · exact .inr (.inr ⟨rfl, (Option.some.inj h).symm⟩)
    · cases h
  | joined =>
    rw [hmain] at h
    cases h

end Process

variable [NeZero N]

namespace Process

/-- The next step of `analysis_thread`; `none` where it waits or has returned. -/
def analysisThread (s : Process N F) : Option (Process N F) :=
  match s.thread with
  | .loopTest => some { s with thread := if s.running then .lock else .exited none }
  | .lock => if s.locked then none else some { s with locked := true, thread := .evaluate }
  | .evaluate =>
    match s.ring.getReadBuffer with
    | (none, ring) =>
      some { s with ring := ring, thread := if s.running then .enterWait else .testStopped none }
    | (some i, ring) => some { s with ring := ring, thread := .testStopped (some i) }
  | .enterWait => some { s with locked := false, thread := .blocked }
  | .blocked => none
  | .woken => if s.locked then none else some { s with locked := true, thread := .evaluate }
  | .testStopped readBuffer =>
    some { s with thread := if s.running then .unlock readBuffer else .unlockStopped readBuffer }
  | .unlockStopped readBuffer => some { s with locked := false, thread := .exited readBuffer }
  | .unlock readBuffer => some { s with locked := false, thread := .analyse readBuffer }
  | .analyse readBuffer =>
    match readBuffer with
    | some i => some { s with thread := .lockFree i }
    -- read_buffer->data through NULL
    | none => none
  | .lockFree i => if s.locked then none else some { s with locked := true, thread := .setFree i }
  | .setFree i => some { s with ring := s.ring.setState i .free, thread := .unlockFree }
  | .unlockFree => some { s with locked := false, thread := .loopTest }
  | .exited _ => none

/-- A capture callback; a sample that cannot be mapped touches nothing shared. -/
def onNewSample (s : Process N F) : NewSample F → Option (Process N F)
  | .pullFailed => some s
  | .mapFailed => some s
  | .mapped map =>
    if s.locked then none
    else
      match s.ring.onNewSample (.mapped map) with
      | (ring, .stored) => some { s with ring := ring, thread := s.thread.wake }
      | (ring, _) => some { s with ring := ring }

def step (s : Process N F) : Label F → Option (Process N F)
  | .newSample x => s.onNewSample x
  | .analysisThread => s.analysisThread
  | .spuriousWakeUp => if s.thread = .blocked then some { s with thread := .woken } else none
  | .main => s.mainThread

/-- All buffers free, the mutex free, `running` set and the thread created. -/
structure Start (s : Process N F) : Prop where
  free : ∀ i, (s.ring.buffers i).state = .free
  writeIndex : s.ring.writeIndex = slot N 0
  readIndex : s.ring.readIndex = slot N 0
  locked : s.locked = false
  running : s.running = true
  thread : s.thread = .loopTest
  main : s.main = .mainLoop

def initial (N F : ℕ) [NeZero N] : Process N F where
  ring := (System.initial N F).ring
  locked := false
  running := true
  thread := .loopTest
  main := .mainLoop

theorem start_initial : (initial N F).Start := ⟨fun _ => rfl, rfl, rfl, rfl, rfl, rfl, rfl⟩

end Process

/-! ## What a step can do -/

/-- The search takes a ready buffer unless there is none. -/
theorem FrameRing.getReadBuffer_cases (r : FrameRing N F) :
    (r.getReadBuffer = (none, r) ∧ ∀ i, (r.buffers i).state ≠ .ready) ∨
      ∃ i, (r.buffers i).state = .ready ∧ r.getReadBuffer =
        (some i, { r.setState i .reading with readIndex := slot N (i + 1) }) := by
  unfold getReadBuffer
  cases hsearch : rotarySearch (fun i => (r.buffers i).state = .ready) r.readIndex with
  | none =>
    refine .inl ⟨rfl, fun i => ?_⟩
    exact of_decide_eq_false (rotarySearch_eq_none hsearch i)
  | some i => exact .inr ⟨i, of_decide_eq_true (rotarySearch_some hsearch), rfl⟩

namespace Process

variable {s t : Process N F}

/-- A callback that runs stores a frame and wakes the thread, or changes nothing. -/
theorem onNewSample_cases {x : NewSample F} (h : s.onNewSample x = some t) :
    t = s ∨ s.locked = false ∧
      t = { s with ring := (s.ring.onNewSample x).1, thread := s.thread.wake } := by
  cases x with
  | pullFailed => exact .inl (Option.some.inj h).symm
  | mapFailed => exact .inl (Option.some.inj h).symm
  | mapped map =>
    have hsame := s.ring.onNewSample_not_stored (.mapped map)
    simp only [onNewSample] at h
    split at h
    · cases h
    · rename_i hlocked
      split at h
      · rename_i ring hring
        obtain rfl := Option.some.inj h
        rw [hring]
        exact .inr ⟨Bool.eq_false_of_not_eq_true hlocked, rfl⟩
      · rename_i ring outcome hstored hring
        rw [hring] at hsame
        have hsame' : ring = s.ring := hsame hstored
        rw [hsame'] at h
        exact .inl (Option.some.inj h).symm

/-- The thread changes neither `running` nor where `main` stands. -/
theorem analysisThread_frame (h : s.analysisThread = some t) :
    t.running = s.running ∧ t.main = s.main := by
  unfold analysisThread at h
  split at h
  all_goals try split at h
  all_goals cases h
  all_goals exact ⟨rfl, rfl⟩

/-- Only `main` changes `running` and where it stands itself. -/
theorem main_frame {l : Label F} (h : s.step l = some t) :
    l = .main ∨ t.running = s.running ∧ t.main = s.main := by
  cases l with
  | newSample x =>
    rcases onNewSample_cases h with rfl | ⟨-, rfl⟩
    · exact .inr ⟨rfl, rfl⟩
    · exact .inr ⟨rfl, rfl⟩
  | analysisThread => exact .inr (analysisThread_frame h)
  | spuriousWakeUp =>
    simp only [step] at h
    split at h
    · cases h
      exact .inr ⟨rfl, rfl⟩
    · cases h
  | main => exact .inl rfl

/-- Evaluating the wait condition reserves a ready buffer, or finds none. -/
theorem evaluate_cases (hpc : s.thread = .evaluate) (h : s.analysisThread = some t) :
    ((∀ i, (s.ring.buffers i).state ≠ .ready) ∧
      t = { s with thread := if s.running then .enterWait else .testStopped none }) ∨
    ∃ i, (s.ring.buffers i).state = .ready ∧ s.ring.getReadBuffer = (some i, t.ring) ∧
      t = { s with
        ring := { s.ring.setState i .reading with readIndex := slot N (i + 1) }
        thread := .testStopped (some i) } := by
  simp only [analysisThread, hpc] at h
  rcases s.ring.getReadBuffer_cases with ⟨hsearch, hnone⟩ | ⟨i, hready, hsearch⟩
  · rw [hsearch] at h
    exact .inl ⟨hnone, (Option.some.inj h).symm⟩
  · rw [hsearch] at h
    obtain rfl := Option.some.inj h
    exact .inr ⟨i, hready, hsearch, rfl⟩

/-! ## The critical sections -/

/-- Every step of the thread is one critical section of the system or none. -/
theorem toSystem_analysisThread (h : s.analysisThread = some t) :
    t.toSystem = s.toSystem ∨ t.toSystem = (s.toSystem.step .thread).1 := by
  cases hpc : s.thread with
  | evaluate =>
    rcases evaluate_cases hpc h with ⟨-, rfl⟩ | ⟨i, -, hsearch, ht⟩
    · refine .inl (toSystem_congr rfl ?_)
      rw [hpc]
      cases s.running <;> rfl
    · refine .inr ?_
      have hsystem : s.toSystem = ⟨s.ring, .waiting⟩ := by
        unfold toSystem
        rw [hpc]
        rfl
      simp only [hsystem, System.step, hsearch]
      rw [ht]
      rfl
  | setFree i =>
    simp only [analysisThread, hpc] at h
    obtain rfl := Option.some.inj h
    have hthread : s.toSystem.thread = .analysing i := by
      unfold toSystem
      rw [hpc]
      rfl
    rw [System.step_analysing _ hthread]
    exact .inr rfl
  | _ =>
    simp only [analysisThread, hpc] at h
    try split at h
    all_goals cases h
    all_goals exact .inl (toSystem_congr rfl (by rw [hpc]; rfl))

theorem system_newSample (ring : FrameRing N F) (thread : Thread N) (x : NewSample F) :
    ((⟨ring, thread⟩ : System N F).step (.newSample x)).1 = ⟨(ring.onNewSample x).1, thread⟩ := by
  cases x with
  | pullFailed => rfl
  | mapFailed => rfl
  | mapped map =>
    simp only [System.step]
    split
    · rename_i hring
      rw [hring]
    · rename_i hring
      rw [hring]

theorem toSystem_step {l : Label F} (h : s.step l = some t) :
    t.toSystem = s.toSystem ∨ ∃ a, t.toSystem = (s.toSystem.step a).1 := by
  cases l with
  | newSample x =>
    rcases onNewSample_cases h with rfl | ⟨-, rfl⟩
    · exact .inl rfl
    · refine .inr ⟨.newSample x, ?_⟩
      have hsystem := system_newSample s.ring s.toSystem.thread x
      refine Eq.trans ?_ hsystem.symm
      simp only [toSystem, ThreadPc.held_wake]
  | analysisThread =>
    rcases toSystem_analysisThread h with hsame | hthread
    · exact .inl hsame
    · exact .inr ⟨.thread, hthread⟩
  | spuriousWakeUp =>
    simp only [step] at h
    split at h
    · rename_i hpc
      cases h
      exact .inl (toSystem_congr rfl (by rw [hpc]; rfl))
    · cases h
  | main =>
    rcases mainThread_cases h with ⟨-, rfl⟩ | ⟨-, rfl⟩ | ⟨-, rfl⟩
    · exact .inl rfl
    · exact .inl (toSystem_congr rfl (ThreadPc.held_wake _))
    · exact .inl rfl

/-- **Every interleaving is a run of the coarser system**, with the same ring. -/
theorem toSystem_reachable (h : Reachable step s t) :
    ∃ actions, t.toSystem = (exec System.step s.toSystem actions).1 := by
  induction h using Relation.ReflTransGen.head_induction_on with
  | refl => exact ⟨[], rfl⟩
  | head hstep _ ih =>
    obtain ⟨l, -, hl⟩ := hstep
    obtain ⟨actions, hactions⟩ := ih
    rcases toSystem_step hl with hsame | ⟨a, ha⟩
    · rw [hsame] at hactions
      exact ⟨actions, hactions⟩
    · rw [ha] at hactions
      exact ⟨a :: actions, hactions⟩

theorem Start.toSystem (h : s.Start) : s.toSystem.Start where
  free := h.free
  writeIndex := h.writeIndex
  readIndex := h.readIndex
  thread := by
    unfold Process.toSystem
    rw [h.thread]
    rfl

/-- In every interleaving the buffer in state 3 is the one the thread has reserved. -/
theorem reading_iff (hs : s.Start) (h : Reachable step s t) (i : Fin N) :
    (t.ring.buffers i).state = .reading ↔ t.thread.held = some i := by
  obtain ⟨actions, hactions⟩ := toSystem_reachable h
  obtain ⟨⟨d, hlayout⟩, -⟩ := Layout.exec ⟨0, Layout.start hs.toSystem⟩ actions
  rw [← hactions] at hlayout
  refine (hlayout.reading_iff i).trans ?_
  unfold Process.toSystem
  cases t.thread.held with
  | none => exact iff_of_false nofun nofun
  | some j => rw [Thread.analysing.injEq, Option.some.injEq]

end Process

end EmSysLab.Assignment06

import EmSysLab.Fifo.Bounded
import EmSysLab.Fifo.Ring
import Mathlib.Logic.Function.Basic

/-!
# The frame buffers of assignment_06

`gstreamer_appsink.c`: the ring of frame buffers that the capture callback fills and
the analysis thread empties, for any number `N` of buffers and any frame size `F`.
Every function below runs with the mutex held, so each is one atomic step; between its
two critical sections the thread only reads the buffer it has reserved.
-/
namespace EmSysLab.Assignment06

open Fifo

/-- The states 0 to 3 of a buffer. -/
inductive BufferState where
  | free
  | ready
  | writing
  | reading
  deriving DecidableEq, Repr

abbrev Frame (F : ℕ) := Fin F → BitVec 8

structure FrameBuffer (F : ℕ) where
  data : Frame F
  state : BufferState

structure FrameRing (N F : ℕ) where
  buffers : Fin N → FrameBuffer F
  writeIndex : Fin N
  readIndex : Fin N

/-- A mapped sample, which holds at least one frame. -/
structure MapInfo (F : ℕ) where
  data : List (BitVec 8)
  size_le : F ≤ data.length

/-- What memcpy takes from a mapped sample. -/
def MapInfo.frame {F : ℕ} (map : MapInfo F) : Frame F :=
  fun i => map.data.get ⟨i, Nat.lt_of_lt_of_le i.isLt map.size_le⟩

/-- How pulling and mapping a new sample turns out. -/
inductive NewSample (F : ℕ) where
  | pullFailed
  | mapFailed
  | mapped (map : MapInfo F)

/-- The four paths through the capture callback; only the first returns GST_FLOW_ERROR. -/
inductive Outcome where
  | pullFailed
  | mapFailed
  | noBuffer
  | stored
  deriving DecidableEq, Repr

inductive FlowReturn where
  | ok
  | error
  deriving DecidableEq, Repr

def Outcome.flow : Outcome → FlowReturn
  | .pullFailed => .error
  | _ => .ok

variable {N F : ℕ}

namespace FrameRing

def setState (r : FrameRing N F) (i : Fin N) (state : BufferState) : FrameRing N F :=
  { r with buffers := Function.update r.buffers i { r.buffers i with state := state } }

def setData (r : FrameRing N F) (i : Fin N) (data : Frame F) : FrameRing N F :=
  { r with buffers := Function.update r.buffers i { r.buffers i with data := data } }

section Buffers

variable (r : FrameRing N F)

@[simp] theorem setState_same (i : Fin N) (state : BufferState) :
    (r.setState i state).buffers i = { r.buffers i with state := state } :=
  Function.update_self i _ _

theorem setState_ne {i j : Fin N} (h : j ≠ i) (state : BufferState) :
    (r.setState i state).buffers j = r.buffers j := Function.update_of_ne h _ _

@[simp] theorem setState_data (i j : Fin N) (state : BufferState) :
    ((r.setState i state).buffers j).data = (r.buffers j).data := by
  by_cases h : j = i
  · rw [h, setState_same]
  · rw [setState_ne r h]

end Buffers

end FrameRing

variable [NeZero N]

namespace FrameRing

/-- Reserve the first free buffer for writing. -/
def getWriteBuffer (r : FrameRing N F) : Option (Fin N) × FrameRing N F :=
  match rotarySearch (fun i => (r.buffers i).state = .free) r.writeIndex with
  | none => (none, r)
  | some index =>
    (some index, { r.setState index .writing with writeIndex := slot N (index + 1) })

/-- Reserve the first ready buffer for reading. -/
def getReadBuffer (r : FrameRing N F) : Option (Fin N) × FrameRing N F :=
  match rotarySearch (fun i => (r.buffers i).state = .ready) r.readIndex with
  | none => (none, r)
  | some index =>
    (some index, { r.setState index .reading with readIndex := slot N (index + 1) })

/-- The capture callback. -/
def onNewSample (r : FrameRing N F) : NewSample F → FrameRing N F × Outcome
  | .pullFailed => (r, .pullFailed)
  | .mapFailed => (r, .mapFailed)
  | .mapped map =>
    match r.getWriteBuffer with
    | (none, r) => (r, .noBuffer)
    | (some i, r) => ((r.setData i map.frame).setState i .ready, .stored)

end FrameRing

/-! ## The callback and the thread together -/

/-- Where the analysis thread stands between its critical sections. -/
inductive Thread (N : ℕ) where
  | waiting
  | analysing (i : Fin N)
  deriving DecidableEq

structure System (N F : ℕ) where
  ring : FrameRing N F
  thread : Thread N

/-- A capture callback, or the next critical section of the analysis thread. -/
inductive Action (F : ℕ) where
  | newSample (x : NewSample F)
  | thread

namespace System

/-- One critical section, with what it does to a frame: `started` holds the bytes handed
to the analysis and `finished` the bytes of the same buffer when the analysis is over. -/
def step (s : System N F) : Action F → System N F × Option (Event (Frame F))
  | .newSample .pullFailed => ({ s with ring := (s.ring.onNewSample .pullFailed).1 }, none)
  | .newSample .mapFailed => ({ s with ring := (s.ring.onNewSample .mapFailed).1 }, none)
  | .newSample (.mapped map) =>
    match s.ring.onNewSample (.mapped map) with
    | (ring, .stored) => ({ s with ring := ring }, some (.accepted map.frame))
    | (ring, _) => ({ s with ring := ring }, some .dropped)
  | .thread =>
    match s.thread with
    | .waiting =>
      match s.ring.getReadBuffer with
      | (none, ring) => ({ s with ring := ring }, none)
      | (some i, ring) => (⟨ring, .analysing i⟩, some (.started (ring.buffers i).data))
    | .analysing i => (⟨s.ring.setState i .free, .waiting⟩, some (.finished (s.ring.buffers i).data))

/-- All buffers free, both indices 0 and the thread waiting; the bytes are whatever they are. -/
structure Start (s : System N F) : Prop where
  free : ∀ i, (s.ring.buffers i).state = .free
  writeIndex : s.ring.writeIndex = slot N 0
  readIndex : s.ring.readIndex = slot N 0
  thread : s.thread = .waiting

/-- The globals as main leaves them before the thread starts. -/
def initial (N F : ℕ) [NeZero N] : System N F :=
  ⟨⟨fun _ => ⟨fun _ => 0, .free⟩, slot N 0, slot N 0⟩, .waiting⟩

theorem start_initial : (initial N F).Start := ⟨fun _ => rfl, rfl, rfl, rfl⟩

end System

/-! ## One critical section at a time -/

namespace FrameRing

variable (r : FrameRing N F)

/-- A free buffer at the write index is filled and made ready. -/
theorem onNewSample_stored (map : MapInfo F) (h : (r.buffers r.writeIndex).state = .free) :
    r.onNewSample (.mapped map) =
      ({ r with
          buffers := Function.update r.buffers r.writeIndex ⟨map.frame, .ready⟩
          writeIndex := slot N (r.writeIndex + 1) }, .stored) := by
  have hsearch : rotarySearch (fun i => (r.buffers i).state = .free) r.writeIndex =
      some r.writeIndex := rotarySearch_start (decide_eq_true h)
  simp only [FrameRing.onNewSample, FrameRing.getWriteBuffer, hsearch, FrameRing.setState,
    FrameRing.setData, Function.update_idem, Function.update_self]

/-- Without a free buffer the sample is dropped. -/
theorem onNewSample_noBuffer (map : MapInfo F) (h : ∀ i, (r.buffers i).state ≠ .free) :
    r.onNewSample (.mapped map) = (r, .noBuffer) := by
  have hsearch : rotarySearch (fun i => (r.buffers i).state = .free) r.writeIndex = none :=
    rotarySearch_none _ fun i => decide_eq_false (h i)
  simp only [FrameRing.onNewSample, FrameRing.getWriteBuffer, hsearch]

/-- A sample that is not stored leaves the ring as it was. -/
theorem onNewSample_not_stored (x : NewSample F) (h : (r.onNewSample x).2 ≠ .stored) :
    (r.onNewSample x).1 = r := by
  cases x with
  | pullFailed => rfl
  | mapFailed => rfl
  | mapped map =>
    revert h
    unfold FrameRing.onNewSample FrameRing.getWriteBuffer
    cases rotarySearch (fun i => (r.buffers i).state = .free) r.writeIndex with
    | none => exact fun _ => rfl
    | some i => exact fun h => absurd rfl h

/-- Only a failed pull is reported to the pipeline. -/
theorem flow_onNewSample (x : NewSample F) :
    (r.onNewSample x).2.flow = .error ↔ x = .pullFailed := by
  cases x with
  | pullFailed => exact iff_of_true rfl rfl
  | mapFailed => exact iff_of_false nofun nofun
  | mapped map =>
    refine iff_of_false ?_ nofun
    unfold FrameRing.onNewSample
    cases r.getWriteBuffer with
    | mk found ring => cases found <;> exact nofun

/-- A frame is stored exactly if some buffer is free. -/
theorem onNewSample_stored_iff (x : NewSample F) : (r.onNewSample x).2 = .stored ↔
    (∃ map, x = .mapped map) ∧ ∃ i, (r.buffers i).state = .free := by
  cases x with
  | pullFailed => exact iff_of_false nofun nofun
  | mapFailed => exact iff_of_false nofun nofun
  | mapped map =>
    unfold FrameRing.onNewSample FrameRing.getWriteBuffer
    cases hsearch : rotarySearch (fun i => (r.buffers i).state = .free) r.writeIndex with
    | none =>
      refine iff_of_false nofun ?_
      rintro ⟨-, i, hfree⟩
      exact of_decide_eq_false (rotarySearch_eq_none hsearch i) hfree
    | some i => exact iff_of_true rfl ⟨⟨map, rfl⟩, i, of_decide_eq_true (rotarySearch_some hsearch)⟩

/-- A ready buffer at the read index is reserved. -/
theorem getReadBuffer_some (h : (r.buffers r.readIndex).state = .ready) :
    r.getReadBuffer = (some r.readIndex,
      { r.setState r.readIndex .reading with readIndex := slot N (r.readIndex + 1) }) := by
  have hsearch : rotarySearch (fun i => (r.buffers i).state = .ready) r.readIndex =
      some r.readIndex := rotarySearch_start (decide_eq_true h)
  simp only [FrameRing.getReadBuffer, hsearch]

theorem getReadBuffer_none (h : ∀ i, (r.buffers i).state ≠ .ready) :
    r.getReadBuffer = (none, r) := by
  have hsearch : rotarySearch (fun i => (r.buffers i).state = .ready) r.readIndex = none :=
    rotarySearch_none _ fun i => decide_eq_false (h i)
  simp only [FrameRing.getReadBuffer, hsearch]

end FrameRing

namespace System

variable (s : System N F)

theorem step_analysing {i : Fin N} (h : s.thread = .analysing i) :
    s.step .thread =
      (⟨s.ring.setState i .free, .waiting⟩, some (.finished (s.ring.buffers i).data)) := by
  simp only [step, h]

theorem step_waiting_none (h : s.thread = .waiting)
    (hready : ∀ i, (s.ring.buffers i).state ≠ .ready) : s.step .thread = (s, none) := by
  simp only [step, h, FrameRing.getReadBuffer_none s.ring hready]
  rw [← h]

theorem step_waiting_some (h : s.thread = .waiting)
    (hready : (s.ring.buffers s.ring.readIndex).state = .ready) :
    s.step .thread =
      (⟨{ s.ring.setState s.ring.readIndex .reading with
          readIndex := slot N (s.ring.readIndex + 1) }, .analysing s.ring.readIndex⟩,
        some (.started (s.ring.buffers s.ring.readIndex).data)) := by
  simp only [step, h, FrameRing.getReadBuffer_some s.ring hready, FrameRing.setState_data]

theorem step_stored (map : MapInfo F) (h : (s.ring.buffers s.ring.writeIndex).state = .free) :
    s.step (.newSample (.mapped map)) =
      (⟨{ s.ring with
          buffers := Function.update s.ring.buffers s.ring.writeIndex ⟨map.frame, .ready⟩
          writeIndex := slot N (s.ring.writeIndex + 1) }, s.thread⟩,
        some (.accepted map.frame)) := by
  simp only [step, FrameRing.onNewSample_stored s.ring map h]

theorem step_dropped (map : MapInfo F) (h : ∀ i, (s.ring.buffers i).state ≠ .free) :
    s.step (.newSample (.mapped map)) = (s, some .dropped) := by
  simp only [step, FrameRing.onNewSample_noBuffer s.ring map h]

end System

end EmSysLab.Assignment06

import EmSysLab.Assignment06.AnalyzeFrame
import EmSysLab.Assignment06.FrameWakeUp
import EmSysLab.Interleaving.Observed

/-!
# Every accepted frame is analysed once

What `gstreamer_appsink.c` prints, at the granularity of its locks. A captured frame is
accepted if there is a free buffer for it. The bytes that `analyze_frame` reads are those of an
accepted frame, and the frames analysed are the first ones accepted, in order; what is
outstanding sits in the ring. The account is kept between the steps: the thread has printed a
frame before it frees its buffer.
-/
namespace EmSysLab.Assignment06

open Fifo Event Interleaving

variable {N F : ℕ}

/-- The frame in the reserved buffer has been analysed, but the buffer is not free yet. -/
def ThreadPc.freeing : ThreadPc N → Bool
  | .lockFree _ => true
  | .setFree _ => true
  | _ => false

theorem ThreadPc.held_of_freeing {pc : ThreadPc N} (h : pc.freeing = true) : ∃ i, pc.held = some i := by
  cases pc with
  | lockFree i => exact ⟨i, rfl⟩
  | setFree i => exact ⟨i, rfl⟩
  | _ => cases h

theorem ThreadPc.freeing_wake (pc : ThreadPc N) : pc.wake.freeing = pc.freeing := by
  cases pc <;> rfl

/-- The frame that a callback brings. -/
def Label.frame : Label F → Option (Frame F)
  | .newSample (.mapped map) => some map.frame
  | _ => none

def Label.captures (l : Label F) : Bool := l.frame.isSome

variable [NeZero N]

namespace Process

/-- What a step does to a frame: accepted, dropped, reserved, or handed to `analyze_frame`
and printed. -/
def event (s : Process N F) : Label F → Option (Event (Frame F))
  | .newSample (.mapped map) =>
    match (s.ring.onNewSample (.mapped map)).2 with
    | .stored => some (.accepted map.frame)
    | _ => some .dropped
  | .newSample _ => none
  | .analysisThread =>
    match s.thread with
    | .evaluate => s.ring.getReadBuffer.1.map fun i => .started (s.ring.buffers i).data
    | .analyse (some i) => some (.finished (s.ring.buffers i).data)
    | _ => none
  | .spuriousWakeUp => none
  | .main => none

/-- The events of a run. -/
def events (s : Process N F) (ls : List (Label F)) : List (Event (Frame F)) :=
  observed step event s ls

/-- The frames of `q` that are still to be analysed. -/
def remaining (pc : ThreadPc N) (q : Bounded (Frame F) N) : List (Frame F) :=
  if pc.freeing then q.queue else q.items

/-- The ring holds the accepted frames that have not been analysed, oldest first. -/
structure Account (s : Process N F) (es : List (Event (Frame F))) (d : ℕ)
    (q : Bounded (Frame F) N) : Prop where
  layout : Layout d s.toSystem q
  accepted : acceptedOf es = finishedOf es ++ remaining s.thread q

variable {s t : Process N F} {es : List (Event (Frame F))} {d : ℕ} {q : Bounded (Frame F) N}

theorem Account.start (h : s.Start) : Account s [] 0 (Bounded.empty (Frame F) N) := by
  refine ⟨Layout.start h.toSystem, ?_⟩
  rw [h.thread]
  rfl

/-- In the layout the reserved buffer is the one in service. -/
theorem Account.serving_none (h : Account s es d q) (hheld : s.thread.held = none) :
    q.serving = none := by
  have hthread := h.layout.thread
  simp only [toSystem, hheld] at hthread
  cases hserving : q.serving with
  | none => rfl
  | some a =>
    rw [hserving] at hthread
    cases hthread

theorem Account.serving_some (h : Account s es d q) {i : Fin N} (hheld : s.thread.held = some i) :
    q.serving = some (s.ring.buffers i).data := by
  have hthread := h.layout.thread
  simp only [toSystem, hheld] at hthread
  cases hserving : q.serving with
  | none =>
    rw [hserving] at hthread
    cases hthread
  | some a =>
    have hitems : q.items = a :: q.queue := by rw [Bounded.items, hserving]; rfl
    have hdata := h.layout.data 0 (by rw [hitems]; exact Nat.succ_pos _)
    rw [hserving] at hthread
    cases hthread
    rw [Nat.add_zero] at hdata
    change (s.ring.buffers (slot N d)).data = _ at hdata
    rw [hdata]
    simp only [hitems, List.getElem_cons_zero]

/-! ## One step of the account -/

/-- A step that leaves the ring and what is outstanding alone. -/
theorem Account.quiet (h : Account s es d q) (hsystem : t.toSystem = s.toSystem)
    (hfreeing : t.thread.freeing = s.thread.freeing) : Account t (es ++ []) d q := by
  rw [List.append_nil]
  refine ⟨hsystem ▸ h.layout, ?_⟩
  rw [h.accepted, remaining, remaining, hfreeing]

theorem Account.newSample (h : Account s es d q) {x : NewSample F}
    (hstep : s.onNewSample x = some t) :
    ∃ d' q', Account t (es ++ (s.event (.newSample x)).toList) d' q' := by
  cases x with
  | pullFailed =>
    obtain rfl := Option.some.inj hstep
    exact ⟨d, q, h.quiet rfl rfl⟩
  | mapFailed =>
    obtain rfl := Option.some.inj hstep
    exact ⟨d, q, h.quiet rfl rfl⟩
  | mapped map =>
    by_cases hroom : q.load < N
    · have hfree : (s.ring.buffers s.ring.writeIndex).state = .free := h.layout.free_writeIndex hroom
      obtain ⟨q', hq', hserving, hitems⟩ := q.step_offer map.frame hroom
      have hstored := FrameRing.onNewSample_stored s.ring map hfree
      have hevent : s.event (.newSample (.mapped map)) = some (.accepted map.frame) := by
        simp only [event, hstored]
      simp only [onNewSample, hstored] at hstep
      split at hstep
      · cases hstep
      · obtain rfl := Option.some.inj hstep
        have hqueue : q'.queue = q.queue ++ [map.frame] := by
          have hsplit := hitems
          rw [Bounded.items, Bounded.items, hserving, List.append_assoc] at hsplit
          exact List.append_cancel_left hsplit
        refine ⟨d, q', ?_, ?_⟩
        · have hlayout := h.layout.store hroom map.frame hserving hitems
          simp only [toSystem, ThreadPc.held_wake]
          exact hlayout
        · rw [hevent]
          change acceptedOf (es ++ [_]) = finishedOf (es ++ [_]) ++ remaining s.thread.wake q'
          rw [acceptedOf_append, finishedOf_append, h.accepted, remaining, remaining,
            ThreadPc.freeing_wake, acceptedOf_singleton, finishedOf_singleton, List.append_nil,
            List.append_assoc]
          cases s.thread.freeing with
          | true => exact congrArg (finishedOf es ++ ·) hqueue.symm
          | false => exact congrArg (finishedOf es ++ ·) hitems.symm
    · have hnone := FrameRing.onNewSample_noBuffer s.ring map (h.layout.not_free hroom)
      have hevent : s.event (.newSample (.mapped map)) = some .dropped := by
        simp only [event, hnone]
      simp only [onNewSample, hnone] at hstep
      split at hstep
      · cases hstep
      · obtain rfl := Option.some.inj hstep
        refine ⟨d, q, h.layout, ?_⟩
        rw [hevent]
        change acceptedOf (es ++ [_]) = finishedOf (es ++ [_]) ++ _
        rw [acceptedOf_append, finishedOf_append, h.accepted, acceptedOf_singleton,
          finishedOf_singleton, List.append_nil, List.append_nil]

theorem Account.evaluate (h : Account s es d q) (hpc : s.thread = .evaluate)
    (hstep : s.analysisThread = some t) :
    ∃ d' q', Account t (es ++ (s.event .analysisThread).toList) d' q' := by
  have hheld : s.thread.held = none := by
    rw [hpc]
    rfl
  rcases evaluate_cases hpc hstep with ⟨hnone, rfl⟩ | ⟨i, hready, hsearch, ht⟩
  · have hevent : s.event .analysisThread = none := by
      simp only [event, hpc, FrameRing.getReadBuffer_none s.ring hnone, Option.map_none]
    rw [hevent]
    refine ⟨d, q, h.quiet (toSystem_congr rfl ?_) ?_⟩
    · rw [hpc]
      cases s.running <;> rfl
    · rw [hpc]
      cases s.running <;> rfl
  · have hevent : s.event .analysisThread = some (.started (s.ring.buffers i).data) := by
      simp only [event, hpc, hsearch, Option.map_some]
    have hnext : t.toSystem = (s.toSystem.step .thread).1 := by
      refine (toSystem_analysisThread hstep).resolve_left fun hsame => ?_
      have hwaiting : s.toSystem.thread = .waiting := by
        simp only [toSystem, hheld]
      have hthread := congrArg System.thread hsame
      rw [hwaiting, ht] at hthread
      cases hthread
    obtain ⟨⟨d', hlayout⟩, -⟩ := h.layout.step .thread
    rw [← hnext] at hlayout
    refine ⟨d', (q.step .next).1, hlayout, ?_⟩
    have haccepted := h.accepted
    rw [remaining, hpc] at haccepted
    rw [hevent, ht]
    change acceptedOf (es ++ [_]) = finishedOf (es ++ [_]) ++ (q.step .next).1.items
    rw [acceptedOf_append, finishedOf_append, Bounded.items_step_next (h.serving_none hheld),
      acceptedOf_singleton, finishedOf_singleton, List.append_nil, List.append_nil]
    exact haccepted

theorem Account.setFree (h : Account s es d q) {i : Fin N} (hpc : s.thread = .setFree i)
    (hstep : s.analysisThread = some t) :
    ∃ d' q', Account t (es ++ (s.event .analysisThread).toList) d' q' := by
  have hheld : s.thread.held = some i := by
    rw [hpc]
    rfl
  have hevent : s.event .analysisThread = none := by
    simp only [event, hpc]
  simp only [analysisThread, hpc] at hstep
  obtain rfl := Option.some.inj hstep
  have hthread : s.toSystem.thread = .analysing i := by
    simp only [toSystem, hheld]
  obtain ⟨⟨d', hlayout⟩, -⟩ := h.layout.step .thread
  rw [System.step_analysing _ hthread] at hlayout
  refine ⟨d', (q.step .next).1, hlayout, ?_⟩
  have haccepted := h.accepted
  rw [remaining, hpc] at haccepted
  rw [hevent]
  change acceptedOf (es ++ []) = finishedOf (es ++ []) ++ (q.step .next).1.items
  rw [List.append_nil, Bounded.items_step_finish (h.serving_some hheld)]
  exact haccepted

/-- The bytes that are analysed are those of the oldest frame outstanding. -/
theorem Account.analyse (h : Account s es d q) {i : Fin N} (hpc : s.thread = .analyse (some i))
    (hstep : s.analysisThread = some t) :
    ∃ d' q', Account t (es ++ (s.event .analysisThread).toList) d' q' := by
  have hheld : s.thread.held = some i := by
    rw [hpc]
    rfl
  have hevent : s.event .analysisThread = some (.finished (s.ring.buffers i).data) := by
    simp only [event, hpc]
  simp only [analysisThread, hpc] at hstep
  obtain rfl := Option.some.inj hstep
  have hlayout := h.layout
  simp only [toSystem, hheld] at hlayout
  refine ⟨d, q, hlayout, ?_⟩
  have hitems : q.items = (s.ring.buffers i).data :: q.queue := by
    rw [Bounded.items, h.serving_some hheld]
    rfl
  have haccepted := h.accepted
  rw [remaining, hpc] at haccepted
  rw [hevent]
  change acceptedOf (es ++ [_]) = finishedOf (es ++ [_]) ++ q.queue
  rw [acceptedOf_append, finishedOf_append, acceptedOf_singleton, finishedOf_singleton,
    List.append_nil, List.append_assoc]
  exact haccepted.trans (congrArg (finishedOf es ++ ·) hitems)

/-- **One step.** Whoever takes it, the account goes on. -/
theorem Account.step (h : Account s es d q) {l : Label F} (hstep : s.step l = some t) :
    ∃ d' q', Account t (es ++ (s.event l).toList) d' q' := by
  cases l with
  | newSample x => exact h.newSample hstep
  | spuriousWakeUp =>
    simp only [Process.step] at hstep
    split at hstep
    · rename_i hpc
      cases hstep
      exact ⟨d, q, h.quiet (toSystem_congr rfl (by rw [hpc]; rfl)) (by rw [hpc]; rfl)⟩
    · cases hstep
  | main =>
    rcases mainThread_cases hstep with ⟨-, rfl⟩ | ⟨-, rfl⟩ | ⟨-, rfl⟩
    · exact ⟨d, q, h.quiet rfl rfl⟩
    · exact ⟨d, q, h.quiet (toSystem_congr rfl (ThreadPc.held_wake _)) (ThreadPc.freeing_wake _)⟩
    · exact ⟨d, q, h.quiet rfl rfl⟩
  | analysisThread =>
    change s.analysisThread = some t at hstep
    cases hpc : s.thread with
    | evaluate => exact h.evaluate hpc hstep
    | setFree i => exact h.setFree hpc hstep
    | analyse b =>
      cases b with
      | some i => exact h.analyse hpc hstep
      | none =>
        simp only [analysisThread, hpc] at hstep
        cases hstep
    | _ =>
      have hevent : s.event .analysisThread = none := by
        simp only [event, hpc]
      rw [hevent]
      simp only [analysisThread, hpc] at hstep
      try split at hstep
      all_goals cases hstep
      all_goals refine ⟨d, q, h.quiet (toSystem_congr rfl ?_) ?_⟩
      all_goals rw [hpc]
      all_goals rfl

/-- Every run keeps the account. -/
theorem Account.runs (h : Account s es d q) {ls : List (Label F)}
    (hrun : runs Process.step s ls = some t) : ∃ d' q', Account t (es ++ s.events ls) d' q' := by
  have hkeep : ∀ (s : Process N F) l t es, Process.step s l = some t →
      (∃ d q, Account s es d q) → ∃ d q, Account t (es ++ (event s l).toList) d q := by
    rintro s l t es hstep ⟨d, q, h⟩
    exact h.step hstep
  exact observed_invariant hkeep hrun ⟨d, q, h⟩

/-- A frame that waits to be analysed in a reserved buffer is the next one that is. -/
theorem Account.remaining_held (h : Account s es d q) {i : Fin N} (hheld : s.thread.held = some i)
    (hfreeing : s.thread.freeing = false) :
    remaining s.thread q = (s.ring.buffers i).data :: q.queue := by
  rw [remaining, hfreeing, if_neg Bool.false_ne_true, Bounded.items, h.serving_some hheld]
  rfl

/-- A callback's frame is accepted or dropped, and nobody else brings one. -/
theorem acceptedOf_event (s : Process N F) (l : Label F) :
    acceptedOf (s.event l).toList = l.frame.toList ∨
      l.captures = true ∧ acceptedOf (s.event l).toList = [] := by
  cases l with
  | newSample x =>
    cases x with
    | pullFailed => exact .inl rfl
    | mapFailed => exact .inl rfl
    | mapped map =>
      simp only [event]
      split
      · exact .inl rfl
      · exact .inr ⟨rfl, rfl⟩
  | spuriousWakeUp => exact .inl rfl
  | main => exact .inl rfl
  | analysisThread =>
    refine .inl ?_
    simp only [event]
    split
    · cases s.ring.getReadBuffer.1 <;> rfl
    · rfl
    · rfl

/-- The frames accepted are some of those captured. -/
theorem sublist_acceptedOf {ls : List (Label F)} (hrun : runs Process.step s ls = some t) :
    (acceptedOf (s.events ls)).Sublist (ls.filterMap Label.frame) := by
  induction ls generalizing s with
  | nil => exact List.Sublist.slnil
  | cons l ls ih =>
    obtain ⟨u, hl, hrest⟩ := runs_cons hrun
    have hhead : (acceptedOf (s.event l).toList).Sublist l.frame.toList := by
      rcases acceptedOf_event s l with haccepted | ⟨-, hdropped⟩
      · rw [haccepted]
      · rw [hdropped]
        exact List.nil_sublist _
    rw [events, observed_cons hl, acceptedOf_append]
    refine (hhead.append (ih hrest)).trans ?_
    cases hframe : l.frame with
    | none => rw [List.filterMap_cons_none hframe]; rfl
    | some f => rw [List.filterMap_cons_some hframe]; rfl

end Process

/-! ## What is outstanding -/

/-- The buffers in use are the first ones of the layout. -/
theorem Layout.busy_iff {d : ℕ} {s : System N F} {q : Bounded (Frame F) N} (h : Layout d s q)
    (i : Fin N) : (s.ring.buffers i).state ≠ .free ↔ ∃ k < q.load, slot N (d + k) = i := by
  obtain ⟨k, hk, rfl, hstate⟩ := h.state_of i
  have hload : q.load ≤ N := q.load_le
  have hserving := q.serving_le_load
  rw [hstate, layoutState]
  constructor
  · intro hne
    refine ⟨k, ?_, rfl⟩
    by_contra hlast
    rw [if_neg (by omega), if_neg hlast] at hne
    exact hne rfl
  · rintro ⟨j, hj, hslot⟩
    obtain rfl := slot_inj (Nat.lt_of_lt_of_le hj hload) hk hslot
    rw [if_pos hj]
    split <;> decide

/-- As many buffers are in use as frames are in the FIFO. -/
theorem Layout.card_busy {d : ℕ} {s : System N F} {q : Bounded (Frame F) N} (h : Layout d s q) :
    (Finset.univ.filter fun i => (s.ring.buffers i).state ≠ .free).card = q.load := by
  have hload : q.load ≤ N := q.load_le
  have hbusy : (Finset.univ.filter fun i => (s.ring.buffers i).state ≠ .free) =
      (Finset.range q.load).image fun k => slot N (d + k) := by
    ext i
    rw [Finset.mem_filter, Finset.mem_image, h.busy_iff]
    simp only [Finset.mem_univ, true_and, Finset.mem_range]
  rw [hbusy, Finset.card_image_of_injOn, Finset.card_range]
  intro j hj k hk hslot
  exact slot_inj (Nat.lt_of_lt_of_le (Finset.mem_range.mp hj) hload)
    (Nat.lt_of_lt_of_le (Finset.mem_range.mp hk) hload) hslot

namespace Process

variable {s t : Process N F} {es : List (Event (Frame F))} {d : ℕ} {q : Bounded (Frame F) N}

/-- Behind a frame that has just been printed, what waits are the frames of the layout. -/
theorem Account.items_eq (h : Account s es d q) : ∃ printed,
    printed.length = s.thread.freeing.toNat ∧ q.items = printed ++ remaining s.thread q := by
  rw [remaining]
  cases hfreeing : s.thread.freeing with
  | false => exact ⟨[], rfl, rfl⟩
  | true =>
    obtain ⟨i, hheld⟩ := ThreadPc.held_of_freeing hfreeing
    refine ⟨[(s.ring.buffers i).data], rfl, ?_⟩
    rw [Bounded.items, h.serving_some hheld]
    rfl

theorem Account.length_remaining_eq (h : Account s es d q) :
    (remaining s.thread q).length + s.thread.freeing.toNat = q.load := by
  obtain ⟨printed, hprinted, hitems⟩ := h.items_eq
  rw [Bounded.load, hitems, List.length_append, hprinted, Nat.add_comm]

/-- What waits fills the buffers in use, but for the one of a frame that has just been printed. -/
theorem Account.length_remaining (h : Account s es d q) :
    (remaining s.thread q).length + s.thread.freeing.toNat =
      (Finset.univ.filter fun i => (s.ring.buffers i).state ≠ .free).card :=
  h.length_remaining_eq.trans h.layout.card_busy.symm

/-- The frames `waiting` fill the buffers in use in consecutive slots from number `d` on, but for
the buffer of a frame that has been printed and is about to be freed. -/
structure Holds (t : Process N F) (d : ℕ) (waiting : List (Frame F)) : Prop where
  data : ∀ k, (hk : k < waiting.length) → (t.ring.buffers (slot N (d + k))).data = waiting[k]
  state : ∀ k < waiting.length, (t.ring.buffers (slot N (d + k))).state =
    if t.thread.held = some (slot N (d + k)) then .reading else .ready
  in_use : ∀ i, (t.ring.buffers i).state ≠ .free ↔
    (∃ k < waiting.length, slot N (d + k) = i) ∨
      t.thread.freeing = true ∧ t.thread.held = some i
  length : waiting.length + t.thread.freeing.toNat =
    (Finset.univ.filter fun i => (t.ring.buffers i).state ≠ .free).card

/-- A buffer in use is reserved or ready. -/
theorem Account.state_of_busy (h : Account s es d q) {i : Fin N}
    (hbusy : (s.ring.buffers i).state ≠ .free) :
    (s.ring.buffers i).state = if s.thread.held = some i then .reading else .ready := by
  have hreading := h.layout.reading_iff i
  have hwriting : (s.ring.buffers i).state ≠ .writing := h.layout.not_writing i
  have hheld : s.toSystem.thread = .analysing i ↔ s.thread.held = some i := by
    unfold toSystem
    cases s.thread.held <;> simp
  rw [hheld] at hreading
  change (s.ring.buffers i).state = .reading ↔ s.thread.held = some i at hreading
  cases hstate : (s.ring.buffers i).state with
  | free => exact absurd hstate hbusy
  | writing => exact absurd hstate hwriting
  | ready =>
    rw [if_neg]
    rw [← hreading, hstate]
    decide
  | reading => rw [if_pos (hreading.mp hstate)]

/-- The reserved buffer is the first one of the layout. -/
theorem Account.held_slot (h : Account s es d q) {i : Fin N} (hheld : s.thread.held = some i) :
    slot N d = i := by
  have hthread := h.layout.thread
  simp only [toSystem, hheld, h.serving_some hheld] at hthread
  exact (Thread.analysing.inj hthread).symm

/-- What is outstanding begins with the first buffer of the layout, or with the second one while
the first is about to be freed. -/
theorem Account.holds (h : Account s es d q) :
    Holds s (d + s.thread.freeing.toNat) (remaining s.thread q) := by
  have hlength := h.length_remaining_eq
  have hbusy := h.layout.busy_iff
  have hin : ∀ k < (remaining s.thread q).length,
      (s.ring.buffers (slot N (d + s.thread.freeing.toNat + k))).state ≠ .free := by
    intro k hk
    rw [Nat.add_assoc]
    exact (hbusy _).mpr ⟨s.thread.freeing.toNat + k, by omega, rfl⟩
  refine ⟨?_, fun k hk => h.state_of_busy (hin k hk), ?_, h.length_remaining⟩
  · intro k hk
    have hitem : s.thread.freeing.toNat + k < q.items.length := by
      change _ < q.load
      omega
    rw [Nat.add_assoc]
    refine (h.layout.data _ hitem).trans ?_
    obtain ⟨printed, hprinted, hitems⟩ := h.items_eq
    simp only [hitems, ← hprinted]
    rw [List.getElem_append_right (Nat.le_add_right _ _)]
    simp only [Nat.add_sub_cancel_left]
  · intro i
    refine (hbusy i).trans ⟨?_, ?_⟩
    · rintro ⟨k, hk, rfl⟩
      cases hfreeing : s.thread.freeing with
      | false =>
        rw [hfreeing] at hlength
        exact .inl ⟨k, Nat.lt_of_lt_of_eq hk hlength.symm, rfl⟩
      | true =>
        obtain ⟨i, hheld⟩ := ThreadPc.held_of_freeing hfreeing
        rw [hfreeing] at hlength
        cases k with
        | zero => exact .inr ⟨rfl, hheld.trans (congrArg some (h.held_slot hheld).symm)⟩
        | succ k =>
          refine .inl ⟨k, Nat.lt_of_succ_lt_succ (Nat.lt_of_lt_of_eq hk hlength.symm), ?_⟩
          rw [Nat.add_assoc, Nat.add_comm k]
          rfl
    · rintro (⟨k, hk, rfl⟩ | ⟨hfreeing, hheld⟩)
      · exact (hbusy _).mp (hin k hk)
      · rw [hfreeing] at hlength
        exact ⟨0, Nat.lt_of_lt_of_eq (Nat.succ_pos _) hlength, h.held_slot hheld⟩

end Process

open Process

/-- Where the frames are that the callbacks of a run from `s` to `t` have captured. -/
structure Accounted {w h : ℕ} (s t : Process N (frameSize w h)) (ls : List (Label (frameSize w h))) :
    Prop where
  /-- Some are accepted and the others dropped. -/
  accepted : (acceptedOf (s.events ls)).Sublist (ls.filterMap Label.frame)
  /-- The next one is accepted exactly if a buffer is free, and nobody is told if it is not. -/
  next_sample : ∀ x, ((t.ring.onNewSample x).2 = .stored ↔
      (∃ map, x = .mapped map) ∧ ∃ i, (t.ring.buffers i).state = .free) ∧
    ((t.ring.onNewSample x).2.flow = .error ↔ x = .pullFailed)
  /-- Those analysed are the first ones accepted, in order, and the buffers in use hold the rest. -/
  outstanding : ∃ d waiting, acceptedOf (s.events ls) = finishedOf (s.events ls) ++ waiting ∧
    t.Holds d waiting
  /-- A reserved buffer holds the next of them until it has been analysed. -/
  next : ∀ i, t.thread.held = some i → t.thread.freeing = false →
    (acceptedOf (s.events ls))[(finishedOf (s.events ls)).length]? = some (t.ring.buffers i).data
  /-- The numbers printed are the green pixels of the accepted frames. -/
  printed : (finishedOf (s.events ls)).map analyzeFrame =
    ((acceptedOf (s.events ls)).take (finishedOf (s.events ls)).length).map
      fun f => some (4 * f.green.card)

/-- **Every accepted frame is analysed once, in order**, in any interleaving of callbacks, the
thread and `main`, with spurious wake-ups and a shutdown at any moment. -/
theorem accepted_analysed_once {w h : ℕ} (hw : Even w) (hh : Even h)
    (s t : Process N (frameSize w h)) (hs : s.Start) (ls : List (Label (frameSize w h)))
    (hrun : runs step s ls = some t) : Accounted s t ls := by
  obtain ⟨d, q, haccount⟩ := (Account.start hs).runs hrun
  have haccepted := haccount.accepted
  rw [List.nil_append] at haccepted
  constructor
  · exact sublist_acceptedOf hrun
  · exact fun x => ⟨t.ring.onNewSample_stored_iff x, t.ring.flow_onNewSample x⟩
  · exact ⟨_, _, haccepted, haccount.holds⟩
  · intro i hheld hfreeing
    rw [haccepted, List.getElem?_append_right (Nat.le_refl _), Nat.sub_self,
      haccount.remaining_held hheld hfreeing]
    rfl
  · rw [haccepted, List.take_left]
    exact List.map_congr_left fun f _ => analyzeFrame_count hw hh f

/-- Two frames of two by two pixels, the first of them all green. -/
def greenSample : NewSample (frameSize 2 2) := .mapped ⟨[9, 9, 9, 9, 0, 0], by decide⟩
def greySample : NewSample (frameSize 2 2) := .mapped ⟨[9, 9, 9, 9, 200, 0], by decide⟩

/-- The thread prints the first frame before the second one is captured. -/
def twoFrames : List (Label (frameSize 2 2)) :=
  [.newSample greenSample] ++ List.replicate 6 .analysisThread ++ [.newSample greySample]

/-- The second one waits in a buffer while the first has not been freed. -/
theorem accepted_analysed_two :
    ∃ t, runs step (initial 3 (frameSize 2 2)) twoFrames = some t ∧
      (finishedOf ((initial 3 (frameSize 2 2)).events twoFrames)).map analyzeFrame = [some 4] ∧
      ∃ i, (t.ring.buffers i).state ≠ .free ∧
        Label.frame (.newSample greySample) = some (t.ring.buffers i).data := by
  have hsome : (runs step (initial 3 (frameSize 2 2)) twoFrames).isSome := by
    decide
  obtain ⟨t, ht⟩ := Option.isSome_iff_exists.mp hsome
  have h := accepted_analysed_once (by decide) (by decide) _ t start_initial twoFrames ht
  refine ⟨t, ht, by decide, ?_⟩
  obtain ⟨d, waiting, haccepted, hholds⟩ := h.outstanding
  have hgrey : acceptedOf ((initial 3 (frameSize 2 2)).events twoFrames) =
      finishedOf ((initial 3 (frameSize 2 2)).events twoFrames) ++
        (Label.frame (.newSample greySample)).toList := by
    decide
  obtain rfl := List.append_cancel_left (haccepted.symm.trans hgrey)
  refine ⟨slot 3 (d + 0), (hholds.in_use _).mpr (.inl ⟨0, Nat.zero_lt_one, rfl⟩), ?_⟩
  rw [hholds.data 0 Nat.zero_lt_one]
  rfl

end EmSysLab.Assignment06

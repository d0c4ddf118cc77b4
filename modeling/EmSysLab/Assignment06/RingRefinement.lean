import EmSysLab.Assignment06.FrameRing

/-!
# The frame ring is a bounded FIFO

The order of the frames is nowhere stored. It rests on a layout: numbering the slots
from the oldest frame not yet freed, the buffer in analysis comes first, then the ready
ones from the read index on, then the free ones from the write index on. Every critical
section keeps the layout and does to the frames what the FIFO's operation does.
-/
namespace EmSysLab.Assignment06

open Fifo Event

variable {N F : ℕ} [NeZero N]

/-- The state of the `k`-th buffer from the oldest one in use on. -/
def layoutState (serving load k : ℕ) : BufferState :=
  if k < serving then .reading else if k < load then .ready else .free

theorem layoutState_eq_reading {serving load k : ℕ} :
    layoutState serving load k = .reading ↔ k < serving := by
  unfold layoutState
  split_ifs with h1 h2
  · exact iff_of_true rfl h1
  · exact iff_of_false (by decide) h1
  · exact iff_of_false (by decide) h1

/-- The ring holds the frames of `q` in consecutive slots from number `d` on. -/
structure Layout (d : ℕ) (s : System N F) (q : Bounded (Frame F) N) : Prop where
  thread : s.thread = if q.serving.isSome then .analysing (slot N d) else .waiting
  readIndex : s.ring.readIndex = slot N (d + q.serving.toList.length)
  writeIndex : s.ring.writeIndex = slot N (d + q.load)
  state : ∀ k < N, (s.ring.buffers (slot N (d + k))).state =
    layoutState q.serving.toList.length q.load k
  data : ∀ k, (h : k < q.items.length) → (s.ring.buffers (slot N (d + k))).data = q.items[k]

/-- The FIFO operation of an action. -/
def Action.op : Action F → Op (Frame F)
  | .newSample .pullFailed => .skip
  | .newSample .mapFailed => .skip
  | .newSample (.mapped map) => .offer map.frame
  | .thread => .next

namespace Layout

variable {d : ℕ} {s : System N F} {q : Bounded (Frame F) N}

theorem start {s : System N F} (h : s.Start) : Layout 0 s (Bounded.empty (Frame F) N) where
  thread := h.thread
  readIndex := h.readIndex
  writeIndex := h.writeIndex
  state := fun _ _ => h.free _
  data := fun _ h => absurd h (Nat.not_lt_zero _)

/-- Every buffer is in the state its place in the layout says. -/
theorem state_of (h : Layout d s q) (i : Fin N) : ∃ k < N, slot N (d + k) = i ∧
    (s.ring.buffers i).state = layoutState q.serving.toList.length q.load k := by
  obtain ⟨k, hk, rfl⟩ := exists_slot d i
  exact ⟨k, hk, rfl, h.state k hk⟩

/-- Storing a frame at the write index appends it. -/
theorem store (h : Layout d s q) (hroom : q.load < N) {q' : Bounded (Frame F) N} (f : Frame F)
    (hserving : q'.serving = q.serving) (hitems : q'.items = q.items ++ [f]) :
    Layout d ⟨{ s.ring with
        buffers := Function.update s.ring.buffers s.ring.writeIndex ⟨f, .ready⟩
        writeIndex := slot N (s.ring.writeIndex + 1) }, s.thread⟩ q' := by
  have hload : q'.load = q.load + 1 := by
    rw [Bounded.load, hitems, List.length_append]
    rfl
  constructor
  · rw [hserving]
    exact h.thread
  · rw [hserving]
    exact h.readIndex
  · rw [hload, h.writeIndex, slot_slot_add]
    rfl
  · intro k hk
    change (Function.update s.ring.buffers s.ring.writeIndex ⟨f, .ready⟩ (slot N (d + k))).state = _
    rw [hserving, hload, h.writeIndex]
    by_cases hnew : k = q.load
    · subst hnew
      rw [Function.update_self, layoutState, if_neg (Nat.not_lt.mpr q.serving_le_load),
        if_pos (Nat.lt_succ_self _)]
    · rw [Function.update_of_ne (slot_ne hk hroom hnew), h.state k hk, layoutState, layoutState]
      have hlt : k < q.load + 1 ↔ k < q.load := by omega
      simp only [hlt]
  · intro k hk
    rw [hitems, List.length_append] at hk
    change (Function.update s.ring.buffers s.ring.writeIndex ⟨f, .ready⟩ (slot N (d + k))).data = _
    simp only [hitems, h.writeIndex]
    by_cases hnew : k = q.load
    · subst hnew
      rw [Function.update_self]
      exact (List.getElem_concat_length rfl _).symm
    · have hold : k < q.items.length := Nat.lt_of_le_of_ne (Nat.le_of_lt_succ hk) hnew
      rw [Function.update_of_ne (slot_ne (Nat.lt_trans hold hroom) hroom hnew), h.data k hold,
        List.getElem_append_left hold]

/-- Reserving the buffer at the read index puts its frame in service. -/
theorem serve {a : Frame F} {queue : List (Frame F)} {hload : _} {hload' : _}
    (h : Layout d s ⟨none, a :: queue, hload⟩) :
    Layout d ⟨{ s.ring.setState s.ring.readIndex .reading with
        readIndex := slot N (s.ring.readIndex + 1) }, .analysing s.ring.readIndex⟩
      ⟨some a, queue, hload'⟩ := by
  have hread : s.ring.readIndex = slot N (d + 0) := h.readIndex
  have hN : 0 < N := Nat.pos_of_neZero N
  constructor
  · rw [hread]
    rfl
  · rw [hread, slot_slot_add]
    rfl
  · exact h.writeIndex
  · intro k hk
    change ((s.ring.setState s.ring.readIndex .reading).buffers (slot N (d + k))).state = _
    rw [hread]
    by_cases h0 : k = 0
    · subst h0
      rw [FrameRing.setState_same]
      rfl
    · rw [FrameRing.setState_ne _ (slot_ne hk hN h0), h.state k hk, layoutState, layoutState]
      have hnone : ¬k < ([] : List (Frame F)).length := Nat.not_lt_zero k
      have hone : ¬k < [a].length := by
        rw [List.length_singleton]
        omega
      exact (if_neg hnone).trans (if_neg hone).symm
  · intro k hk
    exact (FrameRing.setState_data _ _ _ _).trans (h.data k hk)

/-- Freeing the buffer in service moves the window on by one. -/
theorem finish {a : Frame F} {queue : List (Frame F)} {hload : _} {hload' : _}
    (h : Layout d s ⟨some a, queue, hload⟩) :
    Layout (d + 1) ⟨s.ring.setState (slot N d) .free, .waiting⟩ ⟨none, queue, hload'⟩ := by
  have hN : 0 < N := Nat.pos_of_neZero N
  constructor
  · rfl
  · exact h.readIndex
  · have hwrite := h.writeIndex
    rw [Bounded.load, Bounded.items, Option.toList_some, List.singleton_append, List.length_cons,
      Nat.add_comm queue.length, ← Nat.add_assoc] at hwrite
    exact hwrite
  · intro k hk
    change ((s.ring.setState (slot N d) .free).buffers (slot N (d + 1 + k))).state = _
    rw [Nat.add_assoc, Nat.add_comm 1 k]
    by_cases hlast : k + 1 = N
    · rw [hlast, slot_add_self, FrameRing.setState_same]
      have hfull : ¬k < queue.length := by
        rw [Option.toList_some, List.singleton_append, List.length_cons] at hload
        omega
      exact ((if_neg (Nat.not_lt_zero k)).trans (if_neg hfull)).symm
    · have hne : slot N (d + (k + 1)) ≠ slot N d := slot_ne (by omega) hN (Nat.succ_ne_zero k)
      rw [FrameRing.setState_ne _ hne, h.state (k + 1) (by omega), layoutState, layoutState]
      have hserving : ¬k + 1 < [a].length := by
        rw [List.length_singleton]
        omega
      have hload : k + 1 < (a :: queue).length ↔ k < queue.length := Nat.succ_lt_succ_iff
      refine (if_neg hserving).trans (Eq.trans ?_ (if_neg (Nat.not_lt_zero k)).symm)
      exact if_congr hload rfl rfl
  · intro k hk
    have hslot : d + 1 + k = d + (k + 1) := by omega
    rw [hslot]
    exact (FrameRing.setState_data _ _ _ _).trans (h.data (k + 1) (Nat.succ_lt_succ hk))

/-- There is a free buffer, at the write index, exactly while there is room. -/
theorem free_writeIndex (h : Layout d s q) (hroom : q.load < N) :
    (s.ring.buffers s.ring.writeIndex).state = .free := by
  rw [h.writeIndex, h.state _ hroom, layoutState, if_neg (Nat.not_lt.mpr q.serving_le_load),
    if_neg (Nat.lt_irrefl _)]

theorem not_free (h : Layout d s q) (hfull : ¬q.load < N) (i : Fin N) :
    (s.ring.buffers i).state ≠ .free := by
  obtain ⟨k, hk, -, hstate⟩ := h.state_of i
  rw [hstate, layoutState]
  split
  · decide
  · rw [if_pos (by omega)]
    decide

/-- **One critical section of the ring is one operation of the FIFO**, with the same event. -/
theorem step (h : Layout d s q) (a : Action F) :
    (∃ d', Layout d' (s.step a).1 (q.step a.op).1) ∧ (s.step a).2 = (q.step a.op).2 := by
  match a with
  | .newSample .pullFailed =>
    rw [Action.op, Bounded.step_skip]
    exact ⟨⟨d, h⟩, rfl⟩
  | .newSample .mapFailed =>
    rw [Action.op, Bounded.step_skip]
    exact ⟨⟨d, h⟩, rfl⟩
  | .newSample (.mapped map) =>
    by_cases hroom : q.load < N
    · obtain ⟨q', hstep, hserving, hitems⟩ := q.step_offer map.frame hroom
      rw [Action.op, hstep, s.step_stored map (h.free_writeIndex hroom)]
      exact ⟨⟨d, h.store hroom map.frame hserving hitems⟩, rfl⟩
    · rw [Action.op, q.step_offer_full _ hroom, s.step_dropped map (h.not_free hroom)]
      exact ⟨⟨d, h⟩, rfl⟩
  | .thread =>
    have hN : 0 < N := Nat.pos_of_neZero N
    obtain ⟨serving, queue, hload⟩ := q
    match serving, queue with
    | some a, queue =>
      have hdata : (s.ring.buffers (slot N d)).data = a := h.data 0 (Nat.succ_pos _)
      rw [s.step_analysing h.thread, hdata]
      exact ⟨⟨d + 1, h.finish⟩, rfl⟩
    | none, [] =>
      have hnone : ∀ i, (s.ring.buffers i).state ≠ .ready := by
        intro i
        obtain ⟨k, -, -, hstate⟩ := h.state_of i
        have hfree := hstate.trans
          ((if_neg (Nat.not_lt_zero k)).trans (if_neg (Nat.not_lt_zero k)))
        rw [hfree]
        decide
      rw [s.step_waiting_none h.thread hnone]
      exact ⟨⟨d, h⟩, rfl⟩
    | none, a :: queue =>
      have hread : s.ring.readIndex = slot N (d + 0) := h.readIndex
      have hready : (s.ring.buffers s.ring.readIndex).state = .ready := by
        rw [hread, h.state 0 hN]
        rfl
      have hdata : (s.ring.buffers s.ring.readIndex).data = a := by
        rw [hread]
        exact h.data 0 (Nat.succ_pos _)
      rw [s.step_waiting_some h.thread hready, hdata]
      exact ⟨⟨d, h.serve⟩, rfl⟩

/-- The buffer in state 3 is the one the thread analyses. -/
theorem reading_iff (h : Layout d s q) (i : Fin N) :
    (s.ring.buffers i).state = .reading ↔ s.thread = .analysing i := by
  obtain ⟨k, hk, rfl, hstate⟩ := h.state_of i
  rw [hstate, layoutState_eq_reading, h.thread]
  cases q.serving with
  | none =>
    constructor
    · intro hlt
      exact absurd hlt (Nat.not_lt_zero k)
    · intro he
      exact absurd he (by simp)
  | some a =>
    have hone : k < (some a).toList.length ↔ k = 0 := Nat.lt_one_iff
    rw [hone, Option.isSome_some, if_pos rfl, Thread.analysing.injEq]
    constructor
    · rintro rfl
      rfl
    · intro he
      by_contra h0
      exact slot_ne hk (Nat.pos_of_neZero N) h0 he.symm

theorem not_writing (h : Layout d s q) (i : Fin N) : (s.ring.buffers i).state ≠ .writing := by
  obtain ⟨k, -, -, hstate⟩ := h.state_of i
  rw [hstate, layoutState]
  split_ifs <;> decide

/-- A buffer that holds a frame keeps it until the thread has analysed it. -/
theorem stable (h : Layout d s q) (a : Action F) {i : Fin N}
    (hi : (s.ring.buffers i).state ≠ .free) :
    ((s.step a).1.ring.buffers i).data = (s.ring.buffers i).data ∧
      (((s.step a).1.ring.buffers i).state ≠ .free ∨ a = .thread ∧ s.thread = .analysing i) := by
  match a with
  | .newSample .pullFailed => exact ⟨rfl, .inl hi⟩
  | .newSample .mapFailed => exact ⟨rfl, .inl hi⟩
  | .newSample (.mapped map) =>
    by_cases hroom : q.load < N
    · have hne : i ≠ s.ring.writeIndex := by
        rintro rfl
        exact hi (h.free_writeIndex hroom)
      rw [s.step_stored map (h.free_writeIndex hroom)]
      change (Function.update s.ring.buffers _ _ i).data = _ ∧
        ((Function.update s.ring.buffers _ _ i).state ≠ _ ∨ _)
      rw [Function.update_of_ne hne]
      exact ⟨rfl, .inl hi⟩
    · rw [s.step_dropped map (h.not_free hroom)]
      exact ⟨rfl, .inl hi⟩
  | .thread =>
    cases hthread : s.thread with
    | analysing j =>
      rw [s.step_analysing hthread]
      refine ⟨FrameRing.setState_data _ _ _ _, ?_⟩
      by_cases hij : i = j
      · exact .inr ⟨rfl, by rw [hij]⟩
      · refine .inl ?_
        rw [FrameRing.setState_ne _ hij]
        exact hi
    | waiting =>
      cases hsearch : rotarySearch (fun i => (s.ring.buffers i).state = .ready) s.ring.readIndex with
      | none =>
        simp only [System.step, hthread, FrameRing.getReadBuffer, hsearch]
        exact ⟨trivial, .inl hi⟩
      | some index =>
        simp only [System.step, hthread, FrameRing.getReadBuffer, hsearch]
        refine ⟨FrameRing.setState_data _ _ _ _, .inl ?_⟩
        by_cases hij : i = index
        · rw [hij, FrameRing.setState_same]
          change BufferState.reading ≠ .free
          decide
        · rw [FrameRing.setState_ne _ hij]
          exact hi

/-- Whole runs of the ring are runs of the FIFO. -/
theorem exec {s : System N F} {q : Bounded (Frame F) N} (h : ∃ d, Layout d s q)
    (actions : List (Action F)) :
    (∃ d, Layout d (exec System.step s actions).1
        (exec Bounded.step q (actions.map Action.op)).1) ∧
      (exec System.step s actions).2 = (exec Bounded.step q (actions.map Action.op)).2 := by
  refine exec_simulation (R := fun s q => ∃ d, Layout d s q) Action.op ?_ h actions
  rintro s q a ⟨d, h⟩
  exact h.step a

end Layout

/-! ## Whole runs -/

/-- What a bounded FIFO promises, of the system after a run that raised the events `es`. -/
structure FifoContract (s : System N F) (es : List (Event (Frame F))) : Prop where
  /-- A captured frame is accepted, into a free buffer, while fewer than `N` frames wait or
  are analysed. -/
  accept : ∀ map, (acceptedOf es).length < (finishedOf es).length + N →
    (s.step (.newSample (.mapped map))).2 = some (.accepted map.frame) ∧
      ∃ i, (s.ring.buffers i).state = .free ∧
        (s.step (.newSample (.mapped map))).1.ring.buffers i = ⟨map.frame, .ready⟩
  /-- Otherwise it is dropped and nothing changes. -/
  drop : ∀ map, (finishedOf es).length + N ≤ (acceptedOf es).length →
    s.step (.newSample (.mapped map)) = (s, some .dropped)
  /-- Frames are handed to the analysis in the order of acceptance, none twice. -/
  in_order : startedOf es <+: acceptedOf es
  /-- None is left out: `2 * N` critical sections of the thread hand over all of them. -/
  all_handed : ∀ n ≥ 2 * N,
    startedOf (es ++ (exec System.step s (List.replicate n .thread)).2) =
      acceptedOf (es ++ (exec System.step s (List.replicate n .thread)).2)
  /-- What the analysis has read to its end is what was accepted. -/
  intact : finishedOf es <+: acceptedOf es
  /-- A buffer keeps its bytes until the thread frees it. -/
  stable : ∀ a i, (s.ring.buffers i).state ≠ .free →
    ((s.step a).1.ring.buffers i).data = (s.ring.buffers i).data ∧
      (((s.step a).1.ring.buffers i).state ≠ .free ∨ a = .thread ∧ s.thread = .analysing i)
  no_writing : ∀ i, (s.ring.buffers i).state ≠ .writing
  one_reading : ∀ i j, (s.ring.buffers i).state = .reading → (s.ring.buffers j).state = .reading →
    i = j
  reading_iff : ∀ i, (s.ring.buffers i).state = .reading ↔ s.thread = .analysing i

/-- **The frame ring refines the bounded FIFO**, in every run and for every ring size. -/
theorem frameRing_fifo (s : System N F) (hs : s.Start) (actions : List (Action F)) :
    FifoContract (exec System.step s actions).1 (exec System.step s actions).2 := by
  obtain ⟨⟨d, hlayout⟩, hevents⟩ := Layout.exec ⟨0, Layout.start hs⟩ actions
  have hstart : Bounded.Accounts (Bounded.empty (Frame F) N) [] := .nil
  have hacc := hstart.run (actions.map Action.op)
  rw [List.nil_append, ← hevents] at hacc
  have hload := hacc.load_eq
  constructor
  · intro map hroom
    have hfree := hlayout.free_writeIndex (by omega)
    rw [System.step_stored _ map hfree]
    exact ⟨rfl, _, hfree, Function.update_self _ _ _⟩
  · intro map hfull
    exact System.step_dropped _ map (hlayout.not_free (by omega))
  · exact hacc.started_prefix
  · intro n hn
    rw [(Layout.exec ⟨d, hlayout⟩ (List.replicate n .thread)).2, List.map_replicate]
    exact hacc.drained hn
  · exact hacc.finished_prefix
  · exact fun a i hi => hlayout.stable a hi
  · exact hlayout.not_writing
  · intro i j hi hj
    have hthread := (hlayout.reading_iff i).mp hi
    rw [(hlayout.reading_iff j).mp hj, Thread.analysing.injEq] at hthread
    exact hthread.symm
  · exact hlayout.reading_iff

def byteSample (b : BitVec 8) : NewSample 1 := .mapped ⟨[b], Nat.le_refl 1⟩

/-- Three buffers hold three one-byte frames, the one in analysis included; the next is
dropped. -/
theorem frameRing_fifo_full :
    let full := (exec System.step (System.initial 3 1)
      [.newSample (byteSample 1), .thread, .newSample (byteSample 2), .newSample (byteSample 3)]).1
    full.step (.newSample (byteSample 4)) = (full, some .dropped) :=
  (frameRing_fifo (System.initial 3 1) System.start_initial _).drop _ (by decide)

end EmSysLab.Assignment06

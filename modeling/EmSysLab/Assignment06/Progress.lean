import EmSysLab.Assignment06.Analysed
import EmSysLab.Assignment06.Shutdown

/-!
# The analysis thread makes progress

How long an accepted frame waits, counted in steps of the analysis thread alone. The callback
does its work with the mutex held and gives it back, so only the thread itself ever stands in
its own way: nine of its steps take it from one frame to the next, whatever happens between
them. Once `running` is cleared and the thread does not wait, six steps take it to its end.
-/
namespace EmSysLab.Assignment06

open Fifo Event Interleaving

variable {N F : ℕ}

/-- A step of the analysis thread. -/
def Label.own : Label F → Bool
  | .analysisThread => true
  | _ => false

namespace ThreadPc

/-- The thread has seen `running` cleared and returns. -/
def quits : ThreadPc N → Prop
  | .unlockStopped _ => True
  | .exited _ => True
  | _ => False

/-- The steps of a running thread up to the one that analyses a frame, if it finds one. -/
def toAnalysis : ThreadPc N → ℕ
  | .lockFree _ => 9
  | .setFree _ => 8
  | .unlockFree => 7
  | .loopTest => 6
  | .lock => 5
  | .woken => 5
  | .evaluate => 4
  | .testStopped _ => 3
  | .unlock _ => 2
  | .analyse _ => 1
  | _ => 0

theorem toAnalysis_le (pc : ThreadPc N) : pc.toAnalysis ≤ 9 := by
  cases pc <;> exact Nat.le_of_ble_eq_true rfl

theorem quits_of_wake {pc : ThreadPc N} (h : pc.wake.quits) : pc.quits := by
  rcases pc.wake_cases with ⟨-, hwake⟩ | hwake
  · rw [hwake] at h
    exact h.elim
  · rwa [hwake] at h

theorem toAnalysis_pos {pc : ThreadPc N} (hwaits : ¬pc.waits) (hquits : ¬pc.quits) :
    0 < pc.toAnalysis := by
  cases pc with
  | enterWait => exact absurd trivial hwaits
  | blocked => exact absurd trivial hwaits
  | unlockStopped b => exact absurd trivial hquits
  | exited b => exact absurd trivial hquits
  | _ => exact Nat.le_of_ble_eq_true rfl

/-- Waking makes a difference to a blocked thread only. -/
theorem wake_eq {pc : ThreadPc N} (h : ¬pc.waits) : pc.wake = pc :=
  pc.wake_cases.resolve_left fun hblocked => (ne_of_not_waits h).2 hblocked.1

end ThreadPc

variable [NeZero N]

namespace Process

variable {s t u : Process N F}

/-- `running` is never set again. -/
theorem running_of_step {l : Label F} (h : s.step l = some t) (ht : t.running = true) :
    s.running = true := by
  rcases main_frame h with rfl | ⟨hrunning, -⟩
  · rcases mainThread_cases h with ⟨-, rfl⟩ | ⟨-, rfl⟩ | ⟨-, rfl⟩
    · cases ht
    · exact ht
    · exact ht
  · rw [← hrunning]
    exact ht

theorem running_of_runs {ls : List (Label F)} (h : runs step s ls = some t)
    (ht : t.running = true) : s.running = true := by
  induction ls generalizing s with
  | nil =>
    obtain rfl := Option.some.inj h
    exact ht
  | cons l ls ih =>
    obtain ⟨u, hl, hrest⟩ := runs_cons h
    exact running_of_step hl (ih hrest)

/-! ## No step is waited for in vain -/

/-- A thread that neither waits nor has returned can take its next step. -/
theorem Wellformed.isSome_step (hs : s.Wellformed) (hwaits : s.thread ≠ .blocked)
    (hexited : ∀ b, s.thread ≠ .exited b) : (s.step .analysisThread).isSome := by
  have hlocked := hs.locked
  have hnull := hs.not_null
  change s.analysisThread.isSome
  unfold Process.analysisThread
  cases hpc : s.thread with
  | blocked => exact absurd hpc hwaits
  | exited b => exact absurd hpc (hexited b)
  | evaluate =>
    rcases s.ring.getReadBuffer_cases with ⟨hsearch, -⟩ | ⟨i, -, hsearch⟩
    · rw [hsearch]
      rfl
    · rw [hsearch]
      rfl
  | analyse b =>
    rw [hpc] at hnull
    cases b with
    | none => exact absurd trivial hnull
    | some i => rfl
  | _ =>
    rw [hpc] at hlocked
    simp only [hlocked, ThreadPc.holdsMutex]
    rfl

/-- Once it returns it has seen `running` cleared. -/
theorem quits_step {l : Label F} (hs : s.thread.quits → s.running = false)
    (h : s.step l = some t) : t.thread.quits → t.running = false := by
  cases l with
  | newSample x =>
    rcases onNewSample_cases h with rfl | ⟨-, rfl⟩
    · exact hs
    · exact fun hquits => hs (ThreadPc.quits_of_wake hquits)
  | spuriousWakeUp =>
    simp only [step] at h
    split at h
    · cases h
      exact False.elim
    · cases h
  | main =>
    rcases mainThread_cases h with ⟨-, rfl⟩ | ⟨-, rfl⟩ | ⟨-, rfl⟩
    · exact fun _ => rfl
    · exact fun hquits => hs (ThreadPc.quits_of_wake hquits)
    · exact hs
  | analysisThread =>
    have hframe := (analysisThread_frame h).1
    rw [hframe]
    change s.analysisThread = some t at h
    cases hpc : s.thread with
    | loopTest =>
      simp only [analysisThread, hpc] at h
      cases h
      cases hrunning : s.running with
      | true => exact False.elim
      | false => exact fun _ => rfl
    | testStopped b =>
      simp only [analysisThread, hpc] at h
      cases h
      cases hrunning : s.running with
      | true => exact False.elim
      | false => exact fun _ => rfl
    | unlockStopped b =>
      rw [hpc] at hs
      exact fun _ => hs trivial
    | exited b =>
      rw [hpc] at hs
      exact fun _ => hs trivial
    | evaluate =>
      rcases evaluate_cases hpc h with ⟨-, rfl⟩ | ⟨i, -, -, rfl⟩
      · cases s.running <;> exact False.elim
      · exact False.elim
    | _ =>
      simp only [analysisThread, hpc] at h
      try split at h
      all_goals cases h
      all_goals exact False.elim

/-! ## One frame in nine steps -/

/-- The accepted frames that have not been analysed. -/
def unanalysed (s : Process N F) : ℕ :=
  (Finset.univ.filter fun i => (s.ring.buffers i).state ≠ .free).card - s.thread.freeing.toNat

variable {es : List (Event (Frame F))} {d : ℕ} {q : Bounded (Frame F) N}

theorem Account.unanalysed_eq (h : Account s es d q) :
    (acceptedOf es).length = (finishedOf es).length + s.unanalysed := by
  rw [h.accepted, List.length_append, unanalysed, ← h.length_remaining, Nat.add_sub_cancel]

/-- A thread with nothing in its hands finds a frame if there is one. -/
theorem Account.exists_ready (h : Account s es d q) (hheld : s.thread.held = none)
    (hsome : 0 < s.unanalysed) : ∃ i, (s.ring.buffers i).state = .ready := by
  have hcard : (Finset.univ.filter fun i => (s.ring.buffers i).state ≠ .free).card = q.load :=
    h.layout.card_busy
  have hload : 0 < q.load := by
    rw [← hcard]
    exact Nat.lt_of_lt_of_le hsome (Nat.sub_le _ _)
  refine ⟨slot N (d + 0), ?_⟩
  have hstate := h.layout.state 0 (Nat.pos_of_neZero N)
  rw [h.serving_none hheld] at hstate
  exact hstate.trans (if_pos hload)

theorem Account.not_waits (h : Account s es d q) (hs : s.Wellformed) (hsome : 0 < s.unanalysed) :
    ¬s.thread.waits := by
  intro hwaits
  have hheld : s.thread.held = none := by
    cases hpc : s.thread with
    | enterWait => rfl
    | blocked => rfl
    | _ =>
      rw [hpc] at hwaits
      exact hwaits.elim
  obtain ⟨i, hready⟩ := h.exists_ready hheld hsome
  exact hs.no_ready hwaits i hready

/-- A step of the running thread analyses a frame or comes one step closer to it. -/
theorem Account.own_step (h : Account s es d q) (hs : s.Wellformed) (hrunning : s.running = true)
    (hquits : s.thread.quits → s.running = false) (hsome : 0 < s.unanalysed)
    (hstep : s.step .analysisThread = some t) :
    (∃ f, s.event .analysisThread = some (.finished f) ∧ s.thread.toAnalysis = 1 ∧
        t.thread.toAnalysis = 9) ∨
      (finishedOf (s.event .analysisThread).toList = [] ∧
        t.thread.toAnalysis + 1 = s.thread.toAnalysis) := by
  have hwaits := h.not_waits hs hsome
  have hnull := hs.not_null
  change s.analysisThread = some t at hstep
  cases hpc : s.thread with
  | evaluate =>
    obtain ⟨i, hready⟩ := h.exists_ready (by rw [hpc]; rfl) hsome
    rcases evaluate_cases hpc hstep with ⟨hnone, -⟩ | ⟨j, -, hsearch, ht⟩
    · exact absurd hready (hnone i)
    · refine .inr ⟨?_, by rw [ht]; rfl⟩
      simp only [event, hpc, hsearch, Option.map_some]
      rfl
  | analyse b =>
    rw [hpc] at hnull
    cases b with
    | none => exact absurd trivial hnull
    | some i =>
      simp only [analysisThread, hpc] at hstep
      cases hstep
      exact .inl ⟨(s.ring.buffers i).data, by simp only [event, hpc], rfl, rfl⟩
  | testStopped b =>
    simp only [analysisThread, hpc, hrunning, if_true] at hstep
    cases hstep
    exact .inr ⟨by simp only [event, hpc]; rfl, rfl⟩
  | loopTest =>
    simp only [analysisThread, hpc, hrunning, if_true] at hstep
    cases hstep
    exact .inr ⟨by simp only [event, hpc]; rfl, rfl⟩
  | enterWait =>
    rw [hpc] at hwaits
    exact absurd trivial hwaits
  | unlockStopped b =>
    rw [hpc] at hquits
    exact absurd ((hquits trivial).symm.trans hrunning) (by decide)
  | _ =>
    simp only [analysisThread, hpc] at hstep
    try split at hstep
    all_goals cases hstep
    all_goals exact .inr ⟨by simp only [event, hpc]; rfl, rfl⟩

/-- Nobody else's step moves a thread that does not wait, nor analyses a frame. -/
theorem other_step {l : Label F} (hwaits : ¬s.thread.waits) (hl : l.own = false)
    (hstep : s.step l = some t) :
    finishedOf (s.event l).toList = [] ∧ t.thread = s.thread := by
  cases l with
  | analysisThread => cases hl
  | newSample x =>
    have hevent : finishedOf (s.event (.newSample x)).toList = [] := by
      cases x with
      | pullFailed => rfl
      | mapFailed => rfl
      | mapped map =>
        simp only [event]
        split <;> rfl
    rcases onNewSample_cases hstep with rfl | ⟨-, rfl⟩
    · exact ⟨hevent, rfl⟩
    · exact ⟨hevent, ThreadPc.wake_eq hwaits⟩
  | spuriousWakeUp =>
    simp only [step, if_neg (ThreadPc.ne_of_not_waits hwaits).2] at hstep
    cases hstep
  | main =>
    rcases mainThread_cases hstep with ⟨-, rfl⟩ | ⟨-, rfl⟩ | ⟨-, rfl⟩
    · exact ⟨rfl, rfl⟩
    · exact ⟨rfl, ThreadPc.wake_eq hwaits⟩
    · exact ⟨rfl, rfl⟩

/-- What holds in every state of a run, with the events so far. -/
structure Sound (s : Process N F) (es : List (Event (Frame F))) : Prop where
  account : ∃ d q, Account s es d q
  wellformed : s.Wellformed
  quits : s.thread.quits → s.running = false

theorem Sound.step (h : Sound s es) {l : Label F} (hstep : s.step l = some t) :
    Sound t (es ++ (s.event l).toList) := by
  obtain ⟨⟨d, q, haccount⟩, hwf, hquits⟩ := h
  exact ⟨haccount.step hstep, hwf.step hstep, quits_step hquits hstep⟩

theorem Sound.reachable (hs : s.Start) (h : Reachable Process.step s t) : ∃ es, Sound t es := by
  refine h.invariant (P := fun t => ∃ es, Sound t es) ?_ ⟨[], ⟨_, _, .start hs⟩, .start hs, ?_⟩
  · rintro s l t - hstep ⟨es, h⟩
    exact ⟨_, h.step hstep⟩
  · rw [hs.thread]
    exact False.elim

theorem Sound.unanalysed_eq (h : Sound s es) :
    (acceptedOf es).length = (finishedOf es).length + s.unanalysed := by
  obtain ⟨⟨d, q, haccount⟩, -, -⟩ := h
  exact haccount.unanalysed_eq

/-- Only the step that analyses a frame lowers the number of those outstanding. -/
theorem Sound.unanalysed_step (h : Sound s es) {l : Label F} (hstep : s.step l = some t) :
    s.unanalysed ≤ t.unanalysed + (finishedOf (s.event l).toList).length := by
  have hs := h.unanalysed_eq
  have ht := (h.step hstep).unanalysed_eq
  rw [acceptedOf_append, finishedOf_append, List.length_append, List.length_append] at ht
  omega

/-- With more than `m` frames outstanding, a run that takes the thread to the analysis of a
frame and then nine steps on for `m` more analyses them all. -/
theorem Sound.finished {ls : List (Label F)} {m : ℕ} (h : Sound s es) (hm : m < s.unanalysed)
    (hrun : runs Process.step s ls = some t) (ht : t.running = true)
    (hown : s.thread.toAnalysis + 9 * m ≤ ownSteps Label.own ls) :
    m + 1 ≤ (finishedOf (s.events ls)).length := by
  have hrunning := running_of_runs hrun ht
  obtain ⟨d, q, haccount⟩ := h.account
  have hsome : 0 < s.unanalysed := Nat.zero_lt_of_lt hm
  have hwaits := haccount.not_waits h.wellformed hsome
  induction ls generalizing s es m d q with
  | nil =>
    have hquits : ¬s.thread.quits := fun hquits =>
      absurd ((h.quits hquits).symm.trans hrunning) (by decide)
    have hpos := ThreadPc.toAnalysis_pos hwaits hquits
    rw [show ownSteps Label.own ([] : List (Label F)) = 0 from rfl] at hown
    omega
  | cons l ls ih =>
    obtain ⟨u, hl, hrest⟩ := runs_cons hrun
    have hu := h.step hl
    have hurunning := running_of_runs hrest ht
    have hcount := h.unanalysed_step hl
    obtain ⟨d', q', haccount'⟩ := hu.account
    have hnext : ∀ k, k < u.unanalysed → u.thread.toAnalysis + 9 * k ≤ ownSteps Label.own ls →
        k + 1 ≤ (finishedOf (u.events ls)).length := by
      intro k hk hown'
      have hsome' : 0 < u.unanalysed := Nat.zero_lt_of_lt hk
      exact ih hu hk hrest hown' hurunning d' q' haccount' hsome'
        (haccount'.not_waits hu.wellformed hsome')
    rw [events, observed_cons hl, finishedOf_append, List.length_append]
    cases hlown : l.own with
    | false =>
      obtain ⟨hevent, hthread⟩ := other_step hwaits hlown hl
      rw [hevent] at hcount ⊢
      rw [ownSteps, List.countP_cons_of_neg (by rw [hlown]; decide)] at hown
      rw [List.length_nil, Nat.zero_add]
      exact hnext m (Nat.lt_of_lt_of_le hm hcount) (by rw [hthread]; exact hown)
    | true =>
      rw [ownSteps, List.countP_cons_of_pos hlown] at hown
      obtain rfl : l = .analysisThread := by
        cases l <;> first | rfl | cases hlown
      rcases haccount.own_step h.wellformed hrunning h.quits hsome hl with
        ⟨f, hevent, hone, hnine⟩ | ⟨hevent, hcloser⟩
      · have hsingle : (finishedOf (s.event .analysisThread).toList).length = 1 := by
          rw [hevent]
          rfl
        rw [hsingle] at hcount ⊢
        cases m with
        | zero => exact Nat.le_add_right _ _
        | succ m =>
          have hlast := hnext m (by omega) (by unfold ownSteps; omega)
          change _ ≤ 1 + (finishedOf (u.events ls)).length
          omega
      · rw [hevent] at hcount ⊢
        rw [List.length_nil, Nat.zero_add]
        exact hnext m (Nat.lt_of_lt_of_le hm hcount) (by unfold ownSteps; omega)

end Process

open Process

/-- While `running` is set, accepted frames do not wait for anything but the thread's own
steps, nine of them for each frame. -/
structure Responds (s : Process N F) : Prop where
  enabled : s.running = true → 0 < s.unanalysed → (s.step .analysisThread).isSome
  bounded : ∀ ls t m, runs step s ls = some t → t.running = true → m ≤ s.unanalysed →
    9 * m ≤ ownSteps Label.own ls → m ≤ (finishedOf (s.events ls)).length

/-- **Bounded response**, from every state of every interleaving. -/
theorem analysis_responds (s t : Process N F) (hs : s.Start) (h : Reachable step s t) :
    Responds t := by
  obtain ⟨es, hsound⟩ := Sound.reachable hs h
  constructor
  · intro hrunning hsome
    obtain ⟨d, q, haccount⟩ := hsound.account
    have hwaits := haccount.not_waits hsound.wellformed hsome
    refine hsound.wellformed.isSome_step (ThreadPc.ne_of_not_waits hwaits).2 fun b hexited => ?_
    have hquits := hsound.quits (by rw [hexited]; trivial)
    rw [hquits] at hrunning
    cases hrunning
  · intro ls u m hrun hrunning hm hown
    cases m with
    | zero => exact Nat.zero_le _
    | succ m =>
      have hnine := t.thread.toAnalysis_le
      exact hsound.finished hm hrun hrunning (by omega)

/-- Twice nine steps of the thread analyse the two frames that have been accepted. -/
theorem analysis_responds_two : ∃ t u,
    runs step (initial 3 (frameSize 2 2)) [.newSample greenSample, .newSample greySample] = some t ∧
    runs step t (List.replicate 18 .analysisThread) = some u ∧
    2 ≤ (finishedOf (t.events (List.replicate 18 .analysisThread))).length := by
  have hfirst : (runs step (initial 3 (frameSize 2 2))
      [.newSample greenSample, .newSample greySample]).isSome := by
    decide
  obtain ⟨t, ht⟩ := Option.isSome_iff_exists.mp hfirst
  have hrest : ((runs step (initial 3 (frameSize 2 2))
      [.newSample greenSample, .newSample greySample]).bind fun t =>
        (runs step t (List.replicate 18 .analysisThread)).map fun u =>
          (t.unanalysed, u.running)) = some (2, true) := by
    decide
  rw [ht, Option.bind_some] at hrest
  obtain ⟨u, hu, hcount⟩ := Option.map_eq_some_iff.mp hrest
  obtain ⟨htwo, hrunning⟩ := Prod.mk.inj hcount
  refine ⟨t, u, ht, hu, ?_⟩
  exact (analysis_responds _ t start_initial (reachable_of_runs ht)).bounded _ u 2 hu hrunning
    (Nat.le_of_eq htwo.symm) (by decide)

/-! ## The end of the thread -/

namespace ThreadPc

/-- The steps of a thread that finds `running` cleared, up to its return. -/
def toExit : ThreadPc N → ℕ
  | .unlock _ => 6
  | .analyse _ => 5
  | .lockFree _ => 4
  | .lock => 4
  | .woken => 4
  | .setFree _ => 3
  | .evaluate => 3
  | .unlockFree => 2
  | .testStopped _ => 2
  | .loopTest => 1
  | .unlockStopped _ => 1
  | _ => 0

omit [NeZero N] in
theorem toExit_le (pc : ThreadPc N) : pc.toExit ≤ 6 := by
  cases pc <;> exact Nat.le_of_ble_eq_true rfl

/-- Past its last look at `running` the thread still analyses the frame it has reserved. -/
def lastFrame : ThreadPc N → ℕ
  | .unlock _ => 1
  | .analyse _ => 1
  | _ => 0

omit [NeZero N] in
theorem lastFrame_le (pc : ThreadPc N) : pc.lastFrame ≤ 1 := by
  cases pc <;> exact Nat.le_of_ble_eq_true rfl

omit [NeZero N] in
theorem held_of_lastFrame {pc : ThreadPc N} (hnull : ¬pc.atNull) (hlast : 0 < pc.lastFrame) :
    ∃ i, pc.held = some i ∧ pc.freeing = false := by
  cases pc with
  | unlock readBuffer =>
    cases readBuffer with
    | none => exact absurd trivial hnull
    | some i => exact ⟨i, rfl, rfl⟩
  | analyse readBuffer =>
    cases readBuffer with
    | none => exact absurd trivial hnull
    | some i => exact ⟨i, rfl, rfl⟩
  | _ => cases hlast

end ThreadPc

namespace Process

variable {s t : Process N F}

/-- Every step brings a thread that will not wait again nearer to its return. -/
theorem Settled.own_step (hs : s.Settled) (hstep : s.step .analysisThread = some t) :
    t.thread.toExit < s.thread.toExit ∧
      (finishedOf (s.event .analysisThread).toList).length + t.thread.lastFrame ≤
        s.thread.lastFrame := by
  have hrunning := hs.running
  have hwaits := hs.not_waiting
  change s.analysisThread = some t at hstep
  cases hpc : s.thread with
  | evaluate =>
    have hevent : (finishedOf (s.event .analysisThread).toList).length = 0 := by
      simp only [event, hpc]
      cases s.ring.getReadBuffer.1 <;> rfl
    rw [hevent]
    rcases evaluate_cases hpc hstep with ⟨-, rfl⟩ | ⟨i, -, -, rfl⟩
    · rw [if_neg (by rw [hrunning]; decide)]
      exact ⟨Nat.le_refl 3, Nat.le_refl 0⟩
    · exact ⟨Nat.le_refl 3, Nat.le_refl 0⟩
  | enterWait =>
    rw [hpc] at hwaits
    exact absurd trivial hwaits
  | analyse b =>
    cases b with
    | none =>
      simp only [Process.analysisThread, hpc] at hstep
      cases hstep
    | some i =>
      simp only [Process.analysisThread, hpc] at hstep
      cases hstep
      simp only [event, hpc]
      exact ⟨Nat.le_refl 5, Nat.le_refl 1⟩
  | loopTest =>
    simp only [Process.analysisThread, hpc, hrunning, Bool.false_eq_true, if_false] at hstep
    cases hstep
    simp only [event, hpc]
    exact ⟨Nat.le_refl 1, Nat.le_refl 0⟩
  | testStopped b =>
    simp only [Process.analysisThread, hpc, hrunning, Bool.false_eq_true, if_false] at hstep
    cases hstep
    simp only [event, hpc]
    exact ⟨Nat.le_refl 2, Nat.le_refl 0⟩
  | _ =>
    simp only [Process.analysisThread, hpc] at hstep
    try split at hstep
    all_goals cases hstep
    all_goals simp only [event, hpc]
    all_goals exact ⟨Nat.le_of_ble_eq_true rfl, Nat.le_of_ble_eq_true rfl⟩

theorem Settled.steps_le (hs : s.Settled) {ls : List (Label F)}
    (hrun : runs Process.step s ls = some t) :
    ownSteps Label.own ls + t.thread.toExit ≤ s.thread.toExit := by
  have hown : ∀ (s : Process N F) l t, s.Settled → s.step l = some t → Label.own l = true →
      t.thread.toExit < s.thread.toExit := by
    intro s l t hs hstep hl
    obtain rfl : l = .analysisThread := by
      cases l <;> first | rfl | cases hl
    exact (hs.own_step hstep).1
  have hother : ∀ (s : Process N F) l t, s.Settled → s.step l = some t → Label.own l = false →
      t.thread.toExit ≤ s.thread.toExit := by
    intro s l t hs hstep hl
    rw [(other_step hs.not_waiting hl hstep).2]
  have hbound := ownSteps_le (fun s l t (hs : s.Settled) hstep => hs.step hstep) hown hother hrun hs
  exact hbound

theorem Settled.finished_le (hs : s.Settled) {ls : List (Label F)}
    (hrun : runs Process.step s ls = some t) :
    (finishedOf (s.events ls)).length + t.thread.lastFrame ≤ s.thread.lastFrame := by
  have hkeep : ∀ (u : Process N F) l v es, Process.step u l = some v →
      (u.Settled ∧ (finishedOf es).length + u.thread.lastFrame ≤ s.thread.lastFrame) →
        v.Settled ∧ (finishedOf (es ++ (event u l).toList)).length + v.thread.lastFrame ≤
          s.thread.lastFrame := by
    rintro u l v es hstep ⟨hu, hle⟩
    refine ⟨hu.step hstep, ?_⟩
    rw [finishedOf_append, List.length_append]
    cases hl : l.own with
    | false =>
      obtain ⟨hevent, hthread⟩ := other_step hu.not_waiting hl hstep
      rw [hevent, hthread, List.length_nil]
      exact hle
    | true =>
      obtain rfl : l = .analysisThread := by
        cases l <;> first | rfl | cases hl
      have hlast := (hu.own_step hstep).2
      omega
  have hstart : s.Settled ∧
      (finishedOf ([] : List (Event (Frame F)))).length + s.thread.lastFrame ≤ s.thread.lastFrame :=
    ⟨hs, Nat.le_of_eq (Nat.zero_add _)⟩
  exact (observed_invariant hkeep hrun hstart).2

/-- If it analyses another frame it is the one it has reserved. -/
theorem Settled.finished_eq (hs : s.Settled) (hsound : Sound s es)
    {ls : List (Label F)} (hrun : runs Process.step s ls = some t) :
    finishedOf (s.events ls) = [] ∨
      ∃ i, s.thread.held = some i ∧ finishedOf (s.events ls) = [(s.ring.buffers i).data] := by
  have hle := hs.finished_le hrun
  rcases List.eq_nil_or_concat' (finishedOf (s.events ls)) with hnil | ⟨fs, f, hconcat⟩
  · exact .inl hnil
  right
  rw [hconcat, List.length_append, List.length_singleton] at hle
  obtain ⟨i, hheld, hfreeing⟩ :=
    ThreadPc.held_of_lastFrame hsound.wellformed.not_null (by omega)
  have hone := s.thread.lastFrame_le
  obtain rfl : fs = [] := List.eq_nil_of_length_eq_zero (by omega)
  refine ⟨i, hheld, ?_⟩
  obtain ⟨d, q, haccount⟩ := hsound.account
  obtain ⟨d', q', haccount'⟩ := haccount.runs hrun
  have haccepted := haccount'.accepted
  rw [acceptedOf_append, finishedOf_append, haccount.accepted, List.append_assoc,
    List.append_assoc, haccount.remaining_held hheld hfreeing, hconcat] at haccepted
  have hfirst := (List.cons.inj (List.append_cancel_left haccepted)).1
  rw [hconcat, hfirst]
  rfl

end Process

/-- The shutdown comes to its end. -/
structure Completes (s : Process N F) : Prop where
  /-- The thread returns after at most six more steps, whatever the others do. -/
  steps : ∀ ls t, runs step s ls = some t → ownSteps Label.own ls ≤ 6
  /-- It analyses at most the one frame that it has reserved. -/
  last_frame : ∀ ls t, runs step s ls = some t → finishedOf (s.events ls) = [] ∨
    ∃ i, s.thread.held = some i ∧ finishedOf (s.events ls) = [(s.ring.buffers i).data]
  /-- The run does not stop before `main` has joined it. -/
  joined : ∀ t, Reachable step s t → t.step .analysisThread = none → t.step .main = none →
    t.main = .joined

/-- **The shutdown completes**, in every run whose broadcast is clear of the wait. -/
theorem shutdown_completes (s t : Process N F) (hs : s.Start)
    (h : Reaches step BroadcastClear s t) (hmain : t.main = .join ∨ t.main = .joined) :
    Completes t := by
  have hsettled := settled_of_reaches hs h hmain
  constructor
  · intro ls u hrun
    have hsteps := hsettled.steps_le hrun
    have hexit := t.thread.toExit_le
    omega
  · intro ls u hrun
    obtain ⟨es, hsound⟩ := Sound.reachable hs h.reachable
    exact hsettled.finished_eq hsound hrun
  · intro u hu hthread hstuck
    have hwf := Wellformed.reachable hs (h.reachable.trans hu)
    have hblocked := (ThreadPc.ne_of_not_waits (hsettled.reachable hu).not_waiting).2
    by_cases hexited : ∃ b, u.thread = .exited b
    · obtain ⟨b, hb⟩ := hexited
      cases hpc : u.main with
      | joined => rfl
      | _ =>
        simp only [step, mainThread, hpc, hb] at hstuck
        cases hstuck
    · have hsome := hwf.isSome_step hblocked fun b hb => hexited ⟨b, hb⟩
      rw [hthread] at hsome
      cases hsome

/-- No broadcast is sent where `main` does not move. -/
theorem reaches_of_runs {s t : Process N F} {ls : List (Label F)}
    (hls : ∀ l ∈ ls, ∀ u : Process N F, BroadcastClear u l) (hrun : runs step s ls = some t) :
    Reaches step BroadcastClear s t := by
  induction ls generalizing s with
  | nil =>
    obtain rfl := Option.some.inj hrun
    exact .refl
  | cons l ls ih =>
    obtain ⟨u, hl, hrest⟩ := runs_cons hrun
    exact .head ⟨l, hls l List.mem_cons_self s, hl⟩
      (ih (fun l hl => hls l (List.mem_cons_of_mem _ hl)) hrest)

/-- The thread has reserved the first of two frames when `main` clears `running`. -/
def reserved : List (Label (frameSize 2 2)) :=
  [.newSample greenSample, .newSample greySample] ++ List.replicate 4 .analysisThread

theorem shutdown_completes_reserved : ∃ t u,
    runs step (initial 3 (frameSize 2 2)) (reserved ++ [.main, .main]) = some t ∧
      runs step t (List.replicate 6 .analysisThread) = some u ∧
      u.thread = .exited none ∧ u.unanalysed = 1 ∧ Completes t := by
  have hall : ((runs step (initial 3 (frameSize 2 2)) (reserved ++ [.main, .main])).bind fun t =>
      (runs step t (List.replicate 6 .analysisThread)).map fun u =>
        (u.thread, u.unanalysed)) = some (.exited none, 1) := by
    decide
  obtain ⟨t, ht, hrest⟩ := Option.bind_eq_some_iff.mp hall
  obtain ⟨u, hu, hend⟩ := Option.map_eq_some_iff.mp hrest
  obtain ⟨hexited, hleft⟩ := Prod.mk.inj hend
  refine ⟨t, u, ht, hu, hexited, hleft, ?_⟩
  -- `main` clears `running` and broadcasts before the thread has released the mutex
  have hfirst : (runs step (initial 3 (frameSize 2 2)) reserved).map
      (fun t => (t.main, t.thread)) = some (.mainLoop, .unlock (some 0)) := by
    decide
  obtain ⟨r, hr, hlast⟩ := runs_append ht
  rw [hr, Option.map_some, Option.some.injEq, Prod.mk.injEq] at hfirst
  obtain ⟨hmain, hpc⟩ := hfirst
  obtain ⟨r', hclear, hlast⟩ := runs_cons hlast
  obtain ⟨t', hbroadcast, hlast⟩ := runs_cons hlast
  obtain rfl := Option.some.inj hlast
  change r.mainThread = some r' at hclear
  change r'.mainThread = some t' at hbroadcast
  have hquiet : ∀ l ∈ reserved, ∀ u : Process 3 (frameSize 2 2), BroadcastClear u l := by
    rintro (x | _ | _ | _) hl u <;> trivial
  have hreserved := reaches_of_runs hquiet hr
  rcases mainThread_cases hclear with ⟨-, rfl⟩ | ⟨hwrong, -⟩ | ⟨hwrong, -⟩
  · rcases mainThread_cases hbroadcast with ⟨hwrong, -⟩ | ⟨-, rfl⟩ | ⟨hwrong, -⟩
    · cases hwrong
    · refine shutdown_completes _ _ start_initial ((hreserved.tail ⟨.main, ?_, hclear⟩).tail
        ⟨.main, ?_, hbroadcast⟩) (.inl rfl)
      · intro hwrong
        rw [hmain] at hwrong
        cases hwrong
      · intro _ hwrong
        rw [hpc] at hwrong
        cases hwrong
    · cases hwrong
  · rw [hmain] at hwrong
    cases hwrong
  · rw [hmain] at hwrong
    cases hwrong

end EmSysLab.Assignment06

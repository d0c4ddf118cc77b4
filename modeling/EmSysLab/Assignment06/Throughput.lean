import EmSysLab.Assignment06.Progress

/-!
# A thread that keeps up

How many steps the analysis thread is away from having analysed all that has been accepted.
A capture adds nine of them at most and a step of the thread takes one off, as with a leaky
bucket, and a frame is dropped only when there are nine for every buffer but one.
-/
namespace EmSysLab.Assignment06

open Fifo Event Interleaving

variable {N F : ℕ}

namespace ThreadPc

variable {pc : ThreadPc N}

/-- A thread that has printed a frame and not yet locked to free its buffer. -/
theorem toAnalysis_of_freeing (hfreeing : pc.freeing = true) (hmutex : pc.holdsMutex = false) :
    pc.toAnalysis = 9 := by
  cases pc with
  | lockFree i => rfl
  | setFree i => cases hmutex
  | _ => cases hfreeing

end ThreadPc

namespace Process

/-- The steps of the thread until all frames outstanding have been analysed. -/
def work (s : Process N F) : ℕ :=
  if s.unanalysed = 0 then 0 else 9 * (s.unanalysed - 1) + s.thread.toAnalysis

theorem work_of_pos {s : Process N F} (h : 0 < s.unanalysed) :
    s.work = 9 * (s.unanalysed - 1) + s.thread.toAnalysis := if_neg (Nat.ne_of_gt h)

theorem work_of_zero {s : Process N F} (h : s.unanalysed = 0) : s.work = 0 := if_pos h

theorem work_le (s : Process N F) : s.work ≤ 9 * s.unanalysed := by
  have hle := s.thread.toAnalysis_le
  unfold work
  split <;> omega

variable [NeZero N] {s t : Process N F} {es : List (Event (Frame F))}

/-- What a step adds to the frames outstanding and what it takes from them. -/
theorem Sound.balance (h : Sound s es) {l : Label F} (hstep : s.step l = some t) :
    t.unanalysed + (finishedOf (s.event l).toList).length =
      s.unanalysed + (acceptedOf (s.event l).toList).length := by
  have hs := h.unanalysed_eq
  have ht := (h.step hstep).unanalysed_eq
  rw [acceptedOf_append, finishedOf_append, List.length_append, List.length_append] at ht
  omega

theorem acceptedOf_own (s : Process N F) : acceptedOf (s.event .analysisThread).toList = [] :=
  (acceptedOf_event s .analysisThread).resolve_right fun hcaptures => by cases hcaptures.1

/-- A step of the thread takes one off the work, if there is any. -/
theorem Sound.work_own (h : Sound s es) (hrunning : s.running = true)
    (hstep : s.step .analysisThread = some t) : t.work ≤ s.work - 1 := by
  obtain ⟨d, q, haccount⟩ := h.account
  have hbalance := h.balance hstep
  have hle := t.work_le
  rw [acceptedOf_own, List.length_nil, Nat.add_zero] at hbalance
  rcases Nat.eq_zero_or_pos s.unanalysed with hnone | hsome
  · omega
  rw [work_of_pos hsome]
  rcases haccount.own_step h.wellformed hrunning h.quits hsome hstep with
    ⟨f, hevent, hone, hnine⟩ | ⟨hevent, hcloser⟩
  · have hsingle : (finishedOf (s.event .analysisThread).toList).length = 1 := by
      rw [hevent]
      rfl
    rw [hsingle] at hbalance
    omega
  · rw [hevent, List.length_nil, Nat.add_zero] at hbalance
    rw [work_of_pos (hbalance ▸ hsome), hbalance]
    omega

/-- Nobody else adds more than nine steps for a frame, and nothing without one. -/
theorem Sound.work_other (h : Sound s es) {l : Label F} (hl : l.own = false)
    (hstep : s.step l = some t) :
    t.work ≤ s.work + 9 * (acceptedOf (s.event l).toList).length := by
  have hbalance := h.balance hstep
  rcases Nat.eq_zero_or_pos s.unanalysed with hnone | hsome
  · have hle := t.work_le
    rw [work_of_zero hnone]
    omega
  · obtain ⟨d, q, haccount⟩ := h.account
    obtain ⟨hevent, hthread⟩ := other_step (haccount.not_waits h.wellformed hsome) hl hstep
    rw [hevent, List.length_nil, Nat.add_zero] at hbalance
    rw [work_of_pos hsome, work_of_pos (by omega), hthread, hbalance]
    omega

/-- **The work follows the bucket.** -/
theorem Sound.work_step (h : Sound s es) {l : Label F} (hrunning : s.running = true)
    (hstep : s.step l = some t) : t.work ≤ pour Label.own Label.captures 9 s.work l := by
  cases hl : l.own with
  | true =>
    obtain rfl : l = .analysisThread := by
      cases l <;> first | rfl | cases hl
    exact h.work_own hrunning hstep
  | false =>
    have hother := h.work_other hl hstep
    unfold pour
    cases hframe : l.frame with
    | some f =>
      have hcaptures : l.captures = true := by rw [Label.captures, hframe]; rfl
      rw [if_pos hcaptures]
      rcases acceptedOf_event s l with haccepted | ⟨-, haccepted⟩
      · rw [haccepted, hframe] at hother
        exact hother
      · rw [haccepted] at hother
        exact Nat.le_trans hother (Nat.add_le_add_left (Nat.zero_le 9) _)
    | none =>
      have hcaptures : l.captures = false := by rw [Label.captures, hframe]; rfl
      rcases acceptedOf_event s l with haccepted | ⟨hframe', -⟩
      · rw [haccepted, hframe] at hother
        rw [hcaptures, hl, if_neg Bool.false_ne_true, if_neg Bool.false_ne_true]
        exact hother
      · rw [hcaptures] at hframe'
        cases hframe'

/-- A frame is dropped for want of a buffer only. -/
theorem Sound.work_of_dropped (h : Sound s es) {map : MapInfo F}
    (hstep : s.step (.newSample (.mapped map)) = some t)
    (hdropped : acceptedOf (s.event (.newSample (.mapped map))).toList = []) :
    9 * (N - 1) ≤ s.work := by
  obtain ⟨d, q, haccount⟩ := h.account
  have hlocked : s.locked = false := by
    change s.onNewSample (.mapped map) = some t at hstep
    simp only [onNewSample] at hstep
    split at hstep
    · cases hstep
    · rename_i hlocked
      exact Bool.eq_false_of_not_eq_true hlocked
  have hfull : N ≤ q.load := by
    by_contra hroom
    have hfree := haccount.layout.free_writeIndex (Nat.not_le.mp hroom)
    have hstored := FrameRing.onNewSample_stored s.ring map hfree
    simp only [event, hstored] at hdropped
    cases hdropped
  have hbusy := haccount.layout.card_busy
  have hmutex : s.thread.holdsMutex = false := h.wellformed.locked.symm.trans hlocked
  have hunanalysed : s.unanalysed = q.load - s.thread.freeing.toNat := by
    rw [← hbusy]
    rfl
  cases hfreeing : s.thread.freeing with
  | false =>
    rw [hfreeing] at hunanalysed
    change s.unanalysed = q.load at hunanalysed
    have hN : 0 < N := Nat.pos_of_neZero N
    rw [work_of_pos (by omega)]
    omega
  | true =>
    rw [hfreeing] at hunanalysed
    change s.unanalysed = q.load - 1 at hunanalysed
    have hnine := ThreadPc.toAnalysis_of_freeing hfreeing hmutex
    rcases Nat.eq_zero_or_pos s.unanalysed with hnone | hsome
    · omega
    · rw [work_of_pos hsome]
      omega

/-- Where the work stays within the bucket, every frame is accepted. -/
theorem Sound.accepted {ls : List (Label F)} {level : ℕ} (h : Sound s es)
    (hrun : runs Process.step s ls = some t) (ht : t.running = true) (hlevel : s.work ≤ level)
    (hconf : conforms Label.own Label.captures 9 (9 * N - 1) level ls = true) :
    acceptedOf (s.events ls) = ls.filterMap Label.frame := by
  induction ls generalizing s es level with
  | nil => rfl
  | cons l ls ih =>
    have hrunning := running_of_runs hrun ht
    obtain ⟨u, hl, hrest⟩ := runs_cons hrun
    obtain ⟨hroom, hconf'⟩ := conforms_cons hconf
    have hlevel' : u.work ≤ pour Label.own Label.captures 9 level l :=
      Nat.le_trans (h.work_step hrunning hl) (pour_le_pour hlevel l)
    have htail := ih (h.step hl) hrest hlevel' hconf'
    have hhead : acceptedOf (s.event l).toList = l.frame.toList := by
      rcases acceptedOf_event s l with haccepted | ⟨hcaptures, hdropped⟩
      · exact haccepted
      · have hroom' := hroom hcaptures
        obtain ⟨map, rfl⟩ : ∃ map, l = .newSample (.mapped map) := by
          cases l with
          | newSample x =>
            cases x with
            | mapped map => exact ⟨map, rfl⟩
            | _ => cases hcaptures
          | _ => cases hcaptures
        have hwork := h.work_of_dropped hl hdropped
        have hN : 0 < N := Nat.pos_of_neZero N
        omega
    rw [events, observed_cons hl, acceptedOf_append, hhead]
    change _ ++ acceptedOf (u.events ls) = _
    rw [htail]
    cases hframe : l.frame with
    | none => rw [List.filterMap_cons_none hframe]; rfl
    | some f => rw [List.filterMap_cons_some hframe]; rfl

end Process

open Process

/-- **No frame is dropped** while the thread keeps up: where captures take turns with its steps
at one in nine in the long run. The bucket lets a burst of one frame less than there are buffers
pass, since a buffer may still have to be freed; with a single buffer it lets none pass. -/
theorem never_drops [NeZero N] (s t : Process N F) (hs : s.Start) (ls : List (Label F))
    (hrun : runs step s ls = some t) (ht : t.running = true)
    (hconf : conforms Label.own Label.captures 9 (9 * N - 1) 0 ls = true) :
    acceptedOf (s.events ls) = ls.filterMap Label.frame := by
  have hsound : Sound s ([] : List (Event (Frame F))) := by
    refine ⟨⟨_, _, .start hs⟩, .start hs, ?_⟩
    rw [hs.thread]
    exact False.elim
  have hnone : s.unanalysed = 0 := by
    have hcount : 0 = 0 + s.unanalysed := hsound.unanalysed_eq
    omega
  exact hsound.accepted hrun ht (Nat.le_of_eq (work_of_zero hnone)) hconf

/-- Two frames at once, and a third one nine steps later. -/
def burst : List (Label (frameSize 2 2)) :=
  [.newSample greenSample, .newSample greySample] ++ List.replicate 9 .analysisThread ++
    [.newSample greenSample]

theorem never_drops_three :
    (acceptedOf ((initial 3 (frameSize 2 2)).events burst)).length = 3 := by
  have hsome : (runs step (initial 3 (frameSize 2 2)) burst).map (fun t => t.running) =
      some true := by
    decide
  obtain ⟨t, ht, hrunning⟩ := Option.map_eq_some_iff.mp hsome
  rw [never_drops _ t start_initial burst ht hrunning (by decide)]
  rfl

end EmSysLab.Assignment06

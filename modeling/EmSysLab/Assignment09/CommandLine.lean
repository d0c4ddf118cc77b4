import EmSysLab.Assignment09.MotorControlInterface
import Mathlib.Data.List.Basic
import Mathlib.Data.List.Count

/-!
# The command line of the client of assignment_09

`main` of `motor_control_interface.c`, run any number of times. All that is left of a run is the
list of its calls: the packets written, the sleeps between them and what is done to the device.
Wherever it breaks off, what matters is the last packet before. A usage error ends the program
without closing the device.
-/
namespace EmSysLab.Assignment09

/-! ## The program -/

inductive Event where
  | openDevice
  | wrMode (mode : ℕ)
  | wrBitsPerWord (bits : ℕ)
  | wrMaxSpeedHz (speedHz : ℕ)
  | act (action : Action)
  | close
  deriving DecidableEq, Repr

/-- The characters that `isspace` accepts. -/
def isspace (c : Char) : Bool := c.toNat == 32 || (decide (9 ≤ c.toNat) && decide (c.toNat ≤ 13))

/-- The digits up to the first other character. -/
def digits (value : ℕ) : List Char → ℕ
  | [] => value
  | c :: cs => if c.isDigit then digits (10 * value + (c.toNat - 48)) cs else value

/-- `strtol` in base ten saturates at the bounds of a long, and `atoi` keeps the low 32 bits. -/
def atoi (s : String) : BitVec 32 :=
  let value : ℤ :=
    match s.toList.dropWhile isspace with
    | '-' :: cs => -(digits 0 cs : ℤ)
    | '+' :: cs => digits 0 cs
    | cs => digits 0 cs
  BitVec.ofInt 32 (max (-2 ^ 63) (min value (2 ^ 63 - 1)))

def setupSpi (opened : Bool) : ℤ × List Event :=
  if opened then (0, [.openDevice, .wrMode 0, .wrBitsPerWord 8, .wrMaxSpeedHz 500000])
  else (-1, [.openDevice])

def motorStop : List Action := [spiSendMotorCommand (buildControlByte 0 0 0) 0]

/-- The exit status and what has been done. -/
def main (opened : Bool) (argv : List String) : ℕ × List Event :=
  let (status, setup) := setupSpi opened
  if status < 0 then (1, setup)
  else
    match argv with
    | _ :: command :: args =>
      if command = "stop" ∨ command = "s" then (0, setup ++ motorStop.map .act ++ [.close])
      else if command = "blip" ∨ command = "b" then
        match args with
        | [direction, speed, duration] =>
          let blip := motorBlip (atoi direction) (atoi speed) (atoi duration)
          (0, setup ++ blip.map .act ++ [.close])
        | _ => (1, setup)
      else (1, setup ++ [.close])
    | _ => (1, setup)

/-- The program started once. -/
structure Invocation where
  opened : Bool
  argv : List String
  deriving DecidableEq, Repr

namespace Invocation

def status (i : Invocation) : ℕ := (main i.opened i.argv).1

def events (i : Invocation) : List Event := (main i.opened i.argv).2

/-! ## What an invocation is -/

/-- What the arguments ask for. -/
inductive Request where
  | stop
  | blip (direction speedPercent durationMs : BitVec 32)
  | unknown
  | usage
  deriving DecidableEq, Repr

def request (argv : List String) : Request :=
  match argv with
  | _ :: command :: args =>
    if command = "stop" ∨ command = "s" then .stop
    else if command = "blip" ∨ command = "b" then
      match args with
      | [direction, speed, duration] => .blip (atoi direction) (atoi speed) (atoi duration)
      | _ => .usage
    else .unknown
  | _ => .usage

/-- The actions of a request. -/
def Request.actions : Request → List Action
  | .stop => motorStop
  | .blip direction speedPercent durationMs => motorBlip direction speedPercent durationMs
  | .unknown => []
  | .usage => []

/-- The program does what it is asked to, and closes the device but after a usage error. -/
theorem main_eq (argv : List String) : main true argv =
    (match request argv with
      | .stop => 0
      | .blip _ _ _ => 0
      | .unknown => 1
      | .usage => 1,
      (setupSpi true).2 ++ (request argv).actions.map .act ++
        if request argv = .usage then [] else [.close]) := by
  rcases argv with _ | ⟨name, _ | ⟨command, args⟩⟩
  · rfl
  · rfl
  · by_cases hstop : command = "stop" ∨ command = "s"
    · simp [main, request, hstop, setupSpi, Request.actions]
    · by_cases hblip : command = "blip" ∨ command = "b"
      · rcases args with _ | ⟨direction, _ | ⟨speed, _ | ⟨duration, _ | ⟨extra, rest⟩⟩⟩⟩ <;>
          simp [main, request, hstop, hblip, setupSpi, Request.actions]
      · simp [main, request, hstop, hblip, setupSpi, Request.actions]

/-- What the invocation does once the device is open, nothing if it does not open. -/
def actions (i : Invocation) : List Action := if i.opened then (request i.argv).actions else []

/-- The invocation gets as far as the stop packet. -/
def Stops (i : Invocation) : Prop :=
  i.opened = true ∧ request i.argv ≠ .unknown ∧ request i.argv ≠ .usage

instance (i : Invocation) : Decidable i.Stops := inferInstanceAs (Decidable (_ ∧ _ ∧ _))

/-- The argument of usleep, if the invocation is a blip. -/
def sleep (i : Invocation) : Option (BitVec 32) :=
  match i.opened, request i.argv with
  | true, .blip _ _ durationMs => some (BitVec.ofInt 32 (1000 * min durationMs.toInt 200))
  | _, _ => none

/-- A blip of a duration that is not negative, or wraps back into the limit. -/
def Timed (i : Invocation) : Prop :=
  match i.opened, request i.argv with
  | true, .blip _ _ durationMs => 0 ≤ durationMs.toInt ∨ 125 * durationMs.toInt % 2 ^ 29 ≤ 25000
  | _, _ => True

/-- The device is closed at the end. -/
def closes (i : Invocation) : Bool := i.opened && request i.argv != .usage

theorem events_of_opened (argv : List String) : events ⟨true, argv⟩ =
    (setupSpi true).2 ++ (request argv).actions.map .act ++
      if request argv = .usage then [] else [.close] := by
  rw [events, main_eq]

theorem status_eq_zero_iff (i : Invocation) : i.status = 0 ↔ i.Stops := by
  obtain ⟨opened, argv⟩ := i
  cases opened with
  | false => simp [status, main, setupSpi, Stops]
  | true =>
    rw [status, main_eq]
    cases hreq : request argv <;> simp [Stops, hreq]

end Invocation

/-! ## Packets and sleeps -/

def Event.action : Event → Option Action
  | .act a => some a
  | _ => none

namespace Action

/-- The packet that is written. -/
def packet : Action → Option (List (BitVec 8))
  | .write packet => some packet
  | .usleep _ => none

def usec : Action → Option (BitVec 32)
  | .write _ => none
  | .usleep usec => some usec

end Action

def actions (es : List Event) : List Action := es.filterMap Event.action

def packets (es : List Event) : List (List (BitVec 8)) := (actions es).filterMap Action.packet

def sleeps (es : List Event) : List (BitVec 32) := (actions es).filterMap Action.usec

def stop : Event := .act (.write [0, 0])

/-- Enable is bit 5 of the control byte. -/
def enables : List (BitVec 8) → Bool
  | control :: _ => control.getLsbD 5
  | [] => false

/-- The last packet written has enable set. -/
def endsEnabled (es : List Event) : Bool := (packets es).getLast?.any enables

/-- The next packet is the stop packet, with one sleep before it at most. -/
def Stopping (es : List Event) : Prop :=
  ∃ rest, es = stop :: rest ∨ ∃ usec, es = .act (.usleep usec) :: stop :: rest

/-- The stop packet, or one that enables the motor without the brake at a percentage. -/
def Gentle (packet : List (BitVec 8)) : Prop :=
  packet = [0, 0] ∨ ∃ control speed, packet = [control, speed] ∧
    (control = 0x20 ∨ control = 0x30) ∧ speed.toNat ≤ 100

/-- No sleep, and no packet that enables the motor. -/
def Event.quiet : Event → Bool
  | .act (.write packet) => !enables packet
  | .act (.usleep _) => false
  | _ => true

/-- Each packet that enables the motor has a sleep and the stop packet behind it. -/
inductive Bracketed : List Event → Prop where
  | nil : Bracketed []
  | quiet {e : Event} {es : List Event} (he : e.quiet = true) (hes : Bracketed es) :
      Bracketed (e :: es)
  | blip {packet : List (BitVec 8)} {es : List Event} (usec : BitVec 32)
      (hpacket : enables packet = true) (hes : Bracketed es) :
      Bracketed (.act (.write packet) :: .act (.usleep usec) :: stop :: es)

theorem Bracketed.append {es fs : List Event} (hes : Bracketed es) (hfs : Bracketed fs) :
    Bracketed (es ++ fs) := by
  induction hes with
  | nil => exact hfs
  | quiet he _ ih => exact .quiet he ih
  | blip usec hpacket _ ih => exact .blip usec hpacket ih

theorem bracketed_of_quiet {es : List Event} (h : ∀ e ∈ es, e.quiet = true) : Bracketed es := by
  induction es with
  | nil => exact .nil
  | cons e es ih =>
    exact .quiet (h e List.mem_cons_self) (ih fun f hf => h f (List.mem_cons_of_mem e hf))

theorem endsEnabled_append (es fs : List Event) :
    endsEnabled (es ++ fs) = if packets fs = [] then endsEnabled es else endsEnabled fs := by
  unfold endsEnabled packets actions
  rw [List.filterMap_append, List.filterMap_append, List.getLast?_append]
  split
  · rename_i hnone
    rw [hnone]
    rfl
  · rename_i hsome
    rw [List.getLast?_eq_some_getLast hsome]
    rfl

theorem endsEnabled_append_right (es : List Event) {fs : List Event} (h : endsEnabled fs = true) :
    endsEnabled (es ++ fs) = true := by
  rw [endsEnabled_append, if_neg]
  · exact h
  · intro hnone
    rw [endsEnabled, hnone] at h
    cases h

/-- A quiet event does not leave the motor enabled. -/
theorem endsEnabled_cons {e : Event} (he : e.quiet = true) {es : List Event}
    (h : endsEnabled (e :: es) = true) : endsEnabled es = true := by
  rw [← List.singleton_append, endsEnabled_append] at h
  split at h
  · cases e with
    | act a =>
      cases a with
      | write packet =>
        have hstill : enables packet = true := h
        rw [Event.quiet, hstill] at he
        cases he
      | usleep usec => cases he
    | _ => cases h
  · exact h

/-- **Wherever it is cut**, the motor is stopped next if the last packet enabled it. -/
theorem Bracketed.stopping {es before after : List Event} (h : Bracketed es)
    (hcut : es = before ++ after) (henabled : endsEnabled before = true) : Stopping after := by
  induction h generalizing before with
  | nil =>
    obtain ⟨rfl, -⟩ := List.append_eq_nil_iff.mp hcut.symm
    cases henabled
  | quiet he _ ih =>
    cases before with
    | nil => cases henabled
    | cons f before =>
      obtain ⟨rfl, hrest⟩ := List.cons.inj hcut
      exact ih hrest (endsEnabled_cons he henabled)
  | @blip packet es usec _ _ ih =>
    rcases before with _ | ⟨e, _ | ⟨f, _ | ⟨g, before⟩⟩⟩
    · cases henabled
    · obtain ⟨-, rfl⟩ := List.cons.inj hcut
      exact ⟨es, .inr ⟨usec, rfl⟩⟩
    · obtain ⟨-, hcut⟩ := List.cons.inj hcut
      obtain ⟨-, rfl⟩ := List.cons.inj hcut
      exact ⟨es, .inl rfl⟩
    · simp only [List.cons_append, List.cons.injEq] at hcut
      obtain ⟨-, -, rfl, hrest⟩ := hcut
      change endsEnabled ([e, f] ++ stop :: before) = true at henabled
      rw [endsEnabled_append, if_neg (by exact List.cons_ne_nil _ _)] at henabled
      exact ih hrest (endsEnabled_cons rfl henabled)

/-- A sleep comes after a packet that enables the motor and before the stop packet. -/
theorem Bracketed.sleeping {es before after : List Event} {usec : BitVec 32} (h : Bracketed es)
    (hcut : es = before ++ .act (.usleep usec) :: after) :
    endsEnabled before = true ∧ ∃ rest, after = stop :: rest := by
  induction h generalizing before with
  | nil => exact absurd hcut.symm (List.append_ne_nil_of_right_ne_nil _ (List.cons_ne_nil _ _))
  | @quiet e es he _ ih =>
    cases before with
    | nil =>
      obtain ⟨rfl, -⟩ := List.cons.inj hcut
      cases he
    | cons f before =>
      obtain ⟨rfl, hrest⟩ := List.cons.inj hcut
      obtain ⟨henabled, hstop⟩ := ih hrest
      exact ⟨endsEnabled_append_right [e] henabled, hstop⟩
  | @blip packet es usec' hpacket _ ih =>
    rcases before with _ | ⟨e, _ | ⟨f, _ | ⟨g, before⟩⟩⟩
    · cases hcut
    · simp only [List.cons_append, List.nil_append, List.cons.injEq] at hcut
      obtain ⟨rfl, -, rfl⟩ := hcut
      exact ⟨hpacket, es, rfl⟩
    · simp only [List.cons_append, List.nil_append, List.cons.injEq] at hcut
      obtain ⟨-, -, hwrong, -⟩ := hcut
      cases hwrong
    · simp only [List.cons_append, List.cons.injEq] at hcut
      obtain ⟨-, -, -, hrest⟩ := hcut
      obtain ⟨henabled, hstop⟩ := ih hrest
      exact ⟨endsEnabled_append_right [e, f, g] henabled, hstop⟩

/-! ## One invocation -/

theorem enables_buildControlByte (direction : BitVec 32) (speed : BitVec 8) :
    enables [buildControlByte 1 direction 0, speed] = true := by
  obtain ⟨henable, -, -⟩ := getLsbD_buildControlByte 1 direction 0
  exact henable

/-- A blip enables the motor, sleeps and stops it. -/
theorem bracketed_motorBlip (direction speedPercent durationMs : BitVec 32) :
    Bracketed ((motorBlip direction speedPercent durationMs).map .act) := by
  rw [motorBlip_eq]
  exact .blip _ (enables_buildControlByte direction _) .nil

theorem bracketed_events (i : Invocation) : Bracketed i.events := by
  obtain ⟨opened, argv⟩ := i
  cases opened with
  | false =>
    change Bracketed [.openDevice]
    exact bracketed_of_quiet (by decide)
  | true =>
    have hsetup : Bracketed (setupSpi true).2 := bracketed_of_quiet (by decide)
    have hclose : Bracketed (if Invocation.request argv = .usage then [] else [.close]) := by
      split
      · exact .nil
      · exact bracketed_of_quiet (by decide)
    rw [Invocation.events_of_opened]
    refine (hsetup.append ?_).append hclose
    cases Invocation.request argv with
    | stop => exact bracketed_of_quiet (by decide)
    | blip direction speedPercent durationMs => exact bracketed_motorBlip _ _ _
    | unknown => exact .nil
    | usage => exact .nil

/-- The actions of an invocation are those it is asked for. -/
theorem actions_events (i : Invocation) : actions i.events = i.actions := by
  obtain ⟨opened, argv⟩ := i
  cases opened with
  | false => rfl
  | true =>
    have hact : ∀ as : List Action, actions (as.map .act) = as := by
      intro as
      rw [actions, List.filterMap_map]
      exact List.filterMap_some
    have hclose : actions (if Invocation.request argv = .usage then [] else [.close]) = [] := by
      split <;> rfl
    rw [Invocation.events_of_opened, actions, List.filterMap_append, List.filterMap_append]
    change [] ++ actions _ ++ actions _ = _
    rw [hact, hclose, List.append_nil, List.nil_append]
    rfl

/-- Every packet is gentle, and the last one is the stop packet. -/
theorem packets_of_stops {i : Invocation} (h : i.Stops) :
    (∀ packet ∈ i.actions.filterMap Action.packet, Gentle packet) ∧
      (i.actions.filterMap Action.packet).getLast? = some [0, 0] := by
  obtain ⟨opened, argv⟩ := i
  obtain ⟨hopened, hunknown, husage⟩ := h
  obtain rfl : opened = true := hopened
  change (∀ packet ∈ (Invocation.request argv).actions.filterMap Action.packet, Gentle packet) ∧
    ((Invocation.request argv).actions.filterMap Action.packet).getLast? = some [0, 0]
  cases hreq : Invocation.request argv with
  | stop =>
    refine ⟨fun packet hpacket => ?_, rfl⟩
    obtain rfl := List.mem_singleton.mp hpacket
    exact .inl rfl
  | blip direction speedPercent durationMs =>
    rw [Invocation.Request.actions, motorBlip_eq]
    refine ⟨fun packet hpacket => ?_, rfl⟩
    have hpacket' : packet = _ ∨ packet = [0, 0] := List.mem_pair.mp hpacket
    rcases hpacket' with rfl | rfl
    · refine .inr ⟨_, _, rfl, ?_, ?_⟩
      · by_cases hdirection : direction = 0#32 <;> simp [buildControlByte, hdirection]
      · have hspeed : 0 ≤ max 0 (min speedPercent.toInt 100) ∧
            max 0 (min speedPercent.toInt 100) ≤ 100 := by omega
        rw [BitVec.toNat_ofInt]
        omega
    · exact .inl rfl
  | unknown => exact absurd hreq hunknown
  | usage => exact absurd hreq husage

theorem actions_of_not_stops {i : Invocation} (h : ¬i.Stops) : i.actions = [] := by
  obtain ⟨opened, argv⟩ := i
  cases opened with
  | false => rfl
  | true =>
    change (Invocation.request argv).actions = []
    cases hreq : Invocation.request argv with
    | stop => exact absurd ⟨rfl, by rw [hreq]; decide, by rw [hreq]; decide⟩ h
    | blip direction speedPercent durationMs =>
      exact absurd ⟨rfl, by rw [hreq]; nofun, by rw [hreq]; nofun⟩ h
    | unknown => rfl
    | usage => rfl

theorem filterMap_usec (i : Invocation) : i.actions.filterMap Action.usec = i.sleep.toList := by
  obtain ⟨opened, argv⟩ := i
  cases opened with
  | false => rfl
  | true =>
    change (Invocation.request argv).actions.filterMap Action.usec = _
    rw [Invocation.sleep]
    cases Invocation.request argv with
    | blip direction speedPercent durationMs =>
      rw [Invocation.Request.actions, motorBlip_eq]
      rfl
    | _ => rfl

theorem sleep_le_iff (i : Invocation) : (∀ usec ∈ i.sleep, usec.toNat ≤ 200000) ↔ i.Timed := by
  unfold Invocation.sleep Invocation.Timed
  split
  · rename_i durationMs _ _
    rw [← usleep_le_iff]
    simp
  · simp

/-- The device is opened once, and closed if that succeeds and there is no usage error. -/
theorem count_close (i : Invocation) : i.events.count .close = if i.closes then 1 else 0 := by
  obtain ⟨opened, argv⟩ := i
  cases opened with
  | false => rfl
  | true =>
    have hact : ∀ as : List Action, (as.map Event.act).count .close = 0 := by
      intro as
      rw [List.count_eq_zero]
      intro hmem
      obtain ⟨a, -, ha⟩ := List.mem_map.mp hmem
      cases ha
    rw [Invocation.events_of_opened, List.count_append, List.count_append, hact]
    by_cases husage : Invocation.request argv = .usage
    · simp [husage, setupSpi, Invocation.closes]
    · simp [husage, setupSpi, Invocation.closes]

/-! ## A session -/

/-- The calls of several runs of the program, one after the other. -/
def session (is : List Invocation) : List Event := is.flatMap Invocation.events

theorem bracketed_session (is : List Invocation) : Bracketed (session is) := by
  induction is with
  | nil => exact .nil
  | cons i is ih => exact (bracketed_events i).append ih

theorem actions_session (is : List Invocation) :
    actions (session is) = is.flatMap Invocation.actions := by
  rw [actions, session, List.filterMap_flatMap]
  exact List.flatMap_congr fun i _ => actions_events i

theorem gentle_session {is : List Invocation} {packet : List (BitVec 8)}
    (h : packet ∈ packets (session is)) : Gentle packet := by
  rw [packets, actions_session, List.filterMap_flatMap, List.mem_flatMap] at h
  obtain ⟨i, -, hpacket⟩ := h
  by_cases hstops : i.Stops
  · exact (packets_of_stops hstops).1 packet hpacket
  · rw [actions_of_not_stops hstops] at hpacket
    cases hpacket

theorem getLast?_session (is : List Invocation) : (packets (session is)).getLast? =
    if is.any (decide ·.Stops) then some [0, 0] else none := by
  rw [packets, actions_session]
  induction is with
  | nil => rfl
  | cons i is ih =>
    rw [List.flatMap_cons, List.filterMap_append, List.getLast?_append, ih, List.any_cons]
    by_cases hstops : i.Stops
    · rw [(packets_of_stops hstops).2, decide_eq_true hstops]
      cases is.any (decide ·.Stops) <;> rfl
    · rw [actions_of_not_stops hstops, decide_eq_false hstops]
      cases is.any (decide ·.Stops) <;> rfl

theorem sleeps_session (is : List Invocation) :
    sleeps (session is) = is.filterMap Invocation.sleep := by
  rw [sleeps, actions_session, List.filterMap_flatMap, List.filterMap_eq_flatMap_toList]
  exact List.flatMap_congr fun i _ => filterMap_usec i

theorem count_close_session (is : List Invocation) :
    (session is).count .close = is.countP Invocation.closes := by
  induction is with
  | nil => rfl
  | cons i is ih =>
    rw [session, List.flatMap_cons, List.count_append, count_close, List.countP_cons, Nat.add_comm]
    exact congrArg (· + _) ih

/-- What a session writes to the device, sleeps and leaves behind. -/
structure SessionSafe (is : List Invocation) : Prop where
  status : ∀ i ∈ is, i.status = 0 ↔ i.Stops
  /-- Nothing is done but what is asked for. -/
  actions_eq : actions (session is) = is.flatMap Invocation.actions
  gentle : ∀ packet ∈ packets (session is), Gentle packet
  /-- Wherever the session breaks off. -/
  stopping : ∀ before after, session is = before ++ after → endsEnabled before = true →
    Stopping after
  sleeping : ∀ before usec after, session is = before ++ .act (.usleep usec) :: after →
    endsEnabled before = true ∧ ∃ rest, after = stop :: rest
  sleeps_eq : sleeps (session is) = is.filterMap Invocation.sleep
  sleeps_le : (∀ usec ∈ sleeps (session is), usec.toNat ≤ 200000) ↔ ∀ i ∈ is, i.Timed
  last : (packets (session is)).getLast? = if is.any (decide ·.Stops) then some [0, 0] else none
  closed : (session is).count .close = is.countP Invocation.closes

end EmSysLab.Assignment09

import SignedBoot.Proofs.Device.Stages
import SignedBoot.Proofs.Host.Stages

/-!
# Host and device on one line

The host and the device take their steps in any order. What one of them writes goes into a queue, and
the other takes bytes from its front whenever it likes: a byte may be on its way for any time, so a
wait may end although a byte has been sent. While the device has its receiver off, bytes that arrive
are lost.
-/

namespace SignedBoot

variable {n : Nat} {ε : Type}

/-- Whether the receiver is off. -/
def Device.Stage.Deaf : Stage n ε → Prop
  | asleep _ => True
  | erasing _ => True
  | answering _ _ => True
  | _ => False

namespace Device.Stage

/-- Where the device stands after a byte of its session. -/
def taken : Outcome × Session n Layout.frameCapacity → Stage n ε
  | (.quiet, s) => serving s
  | (.executed, s) => acknowledging s
  | (.stopped, s) => reset (.sessionOver .stopped) s.flash
  | (.refused why, s) => refusing why s

/-- On a channel that never fails a session does nothing but take bytes. -/
theorem eq_taken_of_serving {s : Session n Layout.frameCapacity} {act : Act Empty}
    {t : Stage n Empty} (h : Step (serving s) act t) :
    ∃ b, act = .receives b ∧ t = taken (s.take b) := by
  cases h with
  | collects htake => exact ⟨_, rfl, by rw [htake]; rfl⟩
  | executes htake => exact ⟨_, rfl, by rw [htake]; rfl⟩
  | stops htake => exact ⟨_, rfl, by rw [htake]; rfl⟩
  | refuses htake => exact ⟨_, rfl, by rw [htake]; rfl⟩
  | @receiveFails s e => exact e.elim

end Device.Stage

/-- Up to its last byte wrapped content is only collected. -/
theorem Device.take_in_wrap {a : Wire.Assembler Layout.frameCapacity} (ha : a.escaped = false)
    {content before rest : Bytes} {b : UInt8} (hroom : content.length + 1 < Layout.frameCapacity)
    (hwrap : Wire.wrap content = before ++ b :: rest) (hrest : rest ≠ []) (m : Flash.Nor n) :
    Session.take ⟨m, a.after before⟩ b = (.quiet, ⟨m, a.after (before ++ [b])⟩) := by
  have hfeed := Wire.Assembler.feed_in_wrap ha hroom hwrap hrest
  unfold Session.take
  rw [hfeed]

/-- A host and a device, with what is on its way in each direction. Neither end of the line fails. -/
structure Exchange (n : Nat) where
  host : Host.Stage
  /-- Bytes for the device, the next one to arrive first. -/
  toDevice : Bytes
  /-- Bytes for the host, the next one to arrive first. -/
  toHost : Bytes
  device : Device.Stage n Empty

namespace Exchange

inductive Event where
  | host (act : Host.Act)
  | device (act : Device.Act Empty)
  /-- A byte arrives while the receiver is off. -/
  | loses (b : UInt8)
  deriving DecidableEq, Repr

/-- One step of one side, or the loss of a byte. -/
inductive Step (s : Exchange n) : Event → Exchange n → Prop where
  | host {act : Host.Act} {host' : Host.Stage} {rest : Bytes} (h : s.host.Step act host')
    (hheard : s.toHost = act.heard ++ rest) :
    Step s (.host act) ⟨host', s.toDevice ++ act.written, rest, s.device⟩
  | device {act : Device.Act Empty} {device' : Device.Stage n Empty} {rest : Bytes}
    (h : s.device.Step act device') (hheard : s.toDevice = act.heard ++ rest) :
    Step s (.device act) ⟨s.host, rest, s.toHost ++ act.told, device'⟩
  | loses {b : UInt8} {rest : Bytes} (h : s.device.Deaf) (hlost : s.toDevice = b :: rest) :
    Step s (.loses b) ⟨s.host, rest, s.toHost, s.device⟩

/-- Wrapped content can be received at once but for its last byte. -/
theorem path_receives {a : Wire.Assembler Layout.frameCapacity} (ha : a.escaped = false)
    {content before bs : Bytes} {last : UInt8} (hroom : content.length + 1 < Layout.frameCapacity)
    (hwrap : Wire.wrap content = before ++ (bs ++ [last])) (m : Flash.Nor n) (host : Host.Stage)
    (toHost : Bytes) :
    Path Step ⟨host, bs ++ [last], toHost, .serving ⟨m, a.after before⟩⟩
      (bs.map fun b => .device (.receives b))
      ⟨host, [last], toHost, .serving ⟨m, a.after (before ++ bs)⟩⟩ := by
  induction bs generalizing before with
  | nil =>
    rw [List.append_nil]
    exact .nil
  | cons b bs ih =>
    have htake := Device.take_in_wrap ha hroom hwrap (by simp) m
    have hbyte : Step ⟨host, b :: (bs ++ [last]), toHost, .serving ⟨m, a.after before⟩⟩
        (.device (.receives b))
        ⟨host, bs ++ [last], toHost ++ [], .serving ⟨m, a.after (before ++ [b])⟩⟩ :=
      .device (.collects htake) rfl
    have hnext : Wire.wrap content = before ++ [b] ++ (bs ++ [last]) := by
      rw [hwrap]
      simp
    rw [List.append_nil] at hbyte
    rw [List.append_cons before]
    exact .cons hbyte (ih hnext)

/-! ## What has happened -/

/-- The bytes of start sequences that the host has written. -/
def knocked (events : List Event) : Bytes :=
  events.filterMap fun
    | .host (.knocks b) => some b
    | _ => none

/-- The bytes of requests that the host has written. -/
def requested (events : List Event) : Bytes :=
  events.filterMap fun
    | .host (.sends b) => some b
    | _ => none

/-- The bytes that the device found while listening, or lost. -/
def passed (events : List Event) : Bytes :=
  events.filterMap fun
    | .device (.polls found) => found
    | .loses b => some b
    | _ => none

/-- The bytes that the device received for its session. -/
def fed (events : List Event) : Bytes :=
  events.filterMap fun
    | .device (.receives b) => some b
    | _ => none

/-- How many acknowledgements the host has heard. -/
def acks (events : List Event) : Nat :=
  events.countP fun
    | .host (.hears b) => b == Wire.Status.ack.toByte
    | _ => false

section
variable (events : List Event) (event : Event)

theorem knocked_concat : knocked (events ++ [event]) = knocked events ++ knocked [event] :=
  List.filterMap_append

theorem requested_concat :
    requested (events ++ [event]) = requested events ++ requested [event] :=
  List.filterMap_append

theorem passed_concat : passed (events ++ [event]) = passed events ++ passed [event] :=
  List.filterMap_append

theorem fed_concat : fed (events ++ [event]) = fed events ++ fed [event] :=
  List.filterMap_append

theorem acks_concat : acks (events ++ [event]) = acks events + acks [event] :=
  List.countP_append

end

/-! ## The two sides of an exchange -/

/-- What the host has done. -/
def hostActs (events : List Event) : List Host.Act :=
  events.filterMap fun
    | .host act => some act
    | _ => none

/-- What the device has done. -/
def deviceActs (events : List Event) : List (Device.Act Empty) :=
  events.filterMap fun
    | .device act => some act
    | _ => none

/-- The bytes that the host has heard. -/
def heard (events : List Event) : Bytes :=
  (hostActs events).flatMap Host.Act.heard

/-- The bytes that the device has told the host. -/
def told (events : List Event) : Bytes :=
  (deviceActs events).flatMap Device.Act.told

theorem hostActs_concat (events : List Event) (event : Event) :
    hostActs (events ++ [event]) = hostActs events ++ hostActs [event] :=
  List.filterMap_append

theorem deviceActs_concat (events : List Event) (event : Event) :
    deviceActs (events ++ [event]) = deviceActs events ++ deviceActs [event] :=
  List.filterMap_append

/-- Seen from one side, an exchange is a path of that side. -/
theorem path_hostActs {s t : Exchange n} {events : List Event} (hpath : Path Step s events t) :
    Path Host.Stage.Step s.host (hostActs events) t.host := by
  induction hpath with
  | nil => exact .nil
  | snoc _ hstep ih =>
    rw [hostActs_concat]
    cases hstep with
    | host hact => exact .snoc ih hact
    | device hact => exact ih.append .nil
    | loses => exact ih.append .nil

theorem path_deviceActs {s t : Exchange n} {events : List Event} (hpath : Path Step s events t) :
    Path Device.Stage.Step s.device (deviceActs events) t.device := by
  induction hpath with
  | nil => exact .nil
  | snoc _ hstep ih =>
    rw [deviceActs_concat]
    cases hstep with
    | host hact => exact ih.append .nil
    | device hact => exact .snoc ih hact
    | loses => exact ih.append .nil

/-- Whether no session has begun. -/
def Early : Device.Stage n Empty → Prop
  | .asleep _ => True
  | .listening _ _ _ => True
  | .erasing _ => True
  | .answering _ _ => True
  | _ => False

/-- Once its session has begun the device takes no byte but for the session, and never goes back. -/
theorem late_step {s t : Device.Stage n Empty} {act : Device.Act Empty} (hearly : ¬ Early s)
    (hstep : s.Step act t) : passed [.device act] = [] ∧ ¬ Early t := by
  cases hstep <;> first | exact absurd trivial hearly | exact ⟨rfl, id⟩

theorem heard_eq (act : Device.Act Empty) :
    act.heard = passed [.device act] ++ fed [.device act] := by
  rcases act with (_ | b) | b | b | _ | e <;> rfl

/-- Whether the host is through with its start sequences. -/
def Answered : Host.Stage → Prop
  | .knocking _ _ _ => False
  | .expecting _ _ _ => False
  | _ => True

theorem answered_before (requests : List Wire.Request) : Answered (.before requests) := by
  cases requests with
  | nil => trivial
  | cons r rest =>
    rw [Host.Stage.before]
    rcases r.encode? with _ | frame <;> trivial

/-- A host that is through with its start sequences writes requests only, and never goes back. -/
theorem answered_step {s t : Host.Stage} {act : Host.Act} (hanswered : Answered s)
    (hstep : s.Step act t) : requested [.host act] = act.written ∧ Answered t := by
  cases hstep <;>
    first
    | exact hanswered.elim
    | exact ⟨rfl, trivial⟩
    | exact ⟨rfl, answered_before _⟩

/-- All that a host writes that has been answered are its requests. -/
theorem written_of_answered {s t : Exchange n} {events : List Event} (hpath : Path Step s events t)
    (h : Answered s.host) :
    Answered t.host ∧ (hostActs events).flatMap Host.Act.written = requested events := by
  induction hpath with
  | nil => exact ⟨h, rfl⟩
  | snoc _ hstep ih =>
    obtain ⟨hanswered, hwritten⟩ := ih
    rw [hostActs_concat, requested_concat, List.flatMap_append, hwritten]
    cases hstep with
    | host hact =>
      obtain ⟨hrequested, hnext⟩ := answered_step hanswered hact
      rw [hrequested]
      exact ⟨hnext, congrArg _ (List.append_nil _)⟩
    | device => exact ⟨hanswered, rfl⟩
    | loses => exact ⟨hanswered, rfl⟩

/-- All that a device takes from the line in its session is fed to the session. -/
theorem taken_of_late {s t : Exchange n} {events : List Event} (hpath : Path Step s events t)
    (h : ¬ Early s.device) :
    ¬ Early t.device ∧ (deviceActs events).flatMap Device.Act.heard = fed events := by
  induction hpath with
  | nil => exact ⟨h, rfl⟩
  | snoc _ hstep ih =>
    obtain ⟨hlate, htaken⟩ := ih
    rw [deviceActs_concat, fed_concat, List.flatMap_append, htaken]
    cases hstep with
    | host => exact ⟨hlate, rfl⟩
    | @device act device' rest hact =>
      obtain ⟨hnone, hnext⟩ := late_step hlate hact
      have hall := heard_eq act
      rw [hnone, List.nil_append] at hall
      rw [← hall]
      exact ⟨hnext, congrArg _ (List.append_nil _)⟩
    | loses => exact ⟨hlate, rfl⟩

end Exchange

end SignedBoot

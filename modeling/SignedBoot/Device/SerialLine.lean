import SignedBoot.Device.Uart
import SignedBoot.Device.Channel

/-!
# The channel over a UART

The hardware has no receiver switch, so turning the receiver off only marks the line; whatever
arrived meanwhile is read and dropped when the receiver is turned on again. Dropping stops at the
first moment at which nothing is ready and at the first error.

A poll checks for a byte, waits a step, checks again, and so on until the steps add up to the
timeout. There is always a check before the first step and one after the last.
-/

namespace SignedBoot.Device

/-- Length of one waiting step of a poll, in microseconds. -/
abbrev pollStep : Nat := 10

/-- The waiting time is counted in 64 bits. -/
abbrev maxMicros : Nat := 0xFFFFFFFFFFFFFFFF

/-- A UART used as a channel. -/
structure SerialLine where
  uart : Uart
  /-- Whether the receiver counts as on. -/
  receiving : Bool

namespace SerialLine

/-- Why a serial line failed. -/
inductive Failure where
  | io (e : Uart.Failure)
  /-- The hardware reported the end of the stream. -/
  | closed
  /-- The waiting time of a poll left its 64 bits. -/
  | clockOverflow
  deriving DecidableEq, Repr

/-- A line with its receiver on. -/
def ofUart (uart : Uart) : SerialLine := ⟨uart, true⟩

/-- An operation of the hardware, as one of the line. -/
def onUart {α : Type} (op : Attempt Uart Uart.Failure α) : Attempt SerialLine Failure α :=
  ⟨fun s =>
    match op.run s.uart with
    | (.ok a, uart) => (.ok a, { s with uart })
    | (.error e, uart) => (.error (.io e), { s with uart })⟩

/-- Sends a run of bytes and waits until it has left. -/
def sendAll (bs : Bytes) : Attempt SerialLine Failure Unit :=
  onUart do
    Uart.writeAll bs
    Uart.flush

/-- Sends one byte and waits until it has left. -/
def send (b : UInt8) : Attempt SerialLine Failure Unit :=
  sendAll [b]

/-- Waits for the next byte. -/
def receive : Attempt SerialLine Failure UInt8 := do
  match ← onUart Uart.read with
  | some b => return b
  | none => .fail .closed

/-- Lets one step of a poll pass. -/
def waitStep (s : SerialLine) : SerialLine :=
  { s with uart := s.uart.delay pollStep }

/-- Whether a byte is ready. -/
def readReady : Attempt SerialLine Failure Bool :=
  onUart Uart.readReady

/-- Waits for the next byte, which is known to be there. -/
def receiveReady : Attempt SerialLine Failure (Option UInt8) := do
  return some (← receive)

/-- Checks a line for a byte until one is ready or `waited` has reached the budget, both counted in
microseconds. -/
def pollFrom (budget waited : Nat) (s : SerialLine) :
    Except Failure (Option UInt8) × SerialLine :=
  match readReady.run s with
  | (.error e, s) => (.error e, s)
  | (.ok true, s) => receiveReady.run s
  | (.ok false, s) =>
    if budget ≤ waited then (.ok none, s)
    else if maxMicros < waited + pollStep then (.error .clockOverflow, waitStep s)
    else pollFrom budget (waited + pollStep) (waitStep s)
termination_by budget - waited
decreasing_by
  show budget - (waited + 10) < budget - waited
  omega

/-- Waits for the next byte for a number of nanoseconds at most. Fractions of a microsecond do not
count. -/
def poll (timeout : Nat) : Attempt SerialLine Failure (Option UInt8) :=
  ⟨pollFrom (min (timeout / 1000) maxMicros) 0⟩

/-- Drops the bytes that are ready. -/
def drain (u : Uart) : Uart :=
  match _hready : Uart.readReady.run u with
  | (.ok true, u1) =>
    match _hread : Uart.read.run u1 with
    | (.ok (some _), u2) => drain u2
    | (.ok none, u2) => u2
    | (.error _, u2) => u2
  | (.ok false, u1) => u1
  | (.error _, u1) => u1
termination_by u.incoming.length
decreasing_by
  exact Nat.lt_of_lt_of_le (Uart.read_incoming_lt _hread) (Uart.readReady_incoming_le _hready)

/-- Turns the receiver on or off. -/
def setReceive (on : Bool) (s : SerialLine) : SerialLine :=
  { uart := if on && !s.receiving then drain s.uart else s.uart, receiving := on }

theorem onUart_eq_ok {α : Type} {op : Attempt Uart Uart.Failure α} {a : α} {s s' : SerialLine}
    (h : (onUart op).run s = (.ok a, s')) : op.run s.uart = (.ok a, s'.uart) := by
  simp only [onUart] at h
  split at h
  · next heq => cases h; exact heq
  · cases h

theorem sendAll_incoming {bs : Bytes} {s s' : SerialLine} (h : (sendAll bs).run s = (.ok (), s')) :
    s'.uart.incoming = s.uart.incoming := by
  obtain ⟨_, u, hw, hf⟩ := Attempt.run_bind_eq_ok_iff.1 (onUart_eq_ok h)
  exact (Uart.flush_incoming hf).trans (Uart.writeAll_incoming hw)

theorem receive_incoming_lt {b : UInt8} {s s' : SerialLine} (h : receive.run s = (.ok b, s')) :
    s'.uart.incoming.length < s.uart.incoming.length := by
  obtain ⟨found, t, hr, h⟩ := Attempt.run_bind_eq_ok_iff.1 h
  cases found with
  | none => cases h
  | some b' => cases h; exact Uart.read_incoming_lt (onUart_eq_ok hr)

instance : Channel SerialLine Failure where
  send := send
  sendAll := sendAll
  receive := receive
  poll := poll
  setReceive := setReceive
  pending s := s.uart.incoming.length
  send_pending h := Nat.le_of_eq (congrArg List.length (sendAll_incoming h))
  receive_pending h := receive_incoming_lt h

end SerialLine

end SignedBoot.Device

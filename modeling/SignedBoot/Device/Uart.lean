import SignedBoot.Attempt
import SignedBoot.Bytes
import SignedBoot.Quota

/-!
# A blocking UART

The device's serial hardware: a receive queue that can be asked whether a byte is ready, a
transmitter that may accept less than it is given, and a delay that adds up how long the device has
waited. A readiness check never takes a byte.

Moments at which nothing is ready, and errors of either kind, are entries of the queue like the
bytes themselves, so a queue fixes every answer that the hardware will give.
-/

namespace SignedBoot.Device

namespace Uart

/-- One entry of the receive queue. -/
inductive Event where
  /-- A byte that is ready. -/
  | byte (b : UInt8)
  /-- A readiness check finds nothing. -/
  | wait
  /-- A read reports the end of the stream. -/
  | eof
  /-- A read fails. -/
  | readError
  /-- A readiness check fails. -/
  | readyError
  deriving DecidableEq, Repr

/-- The operation that failed. -/
inductive Failure where
  | read
  | ready
  | write
  | flush
  deriving DecidableEq, Repr

/-- The name of the operation that failed. -/
def Failure.message : Failure → String
  | read => "read"
  | ready => "ready"
  | write => "write"
  | flush => "flush"

end Uart

/-- The state of the serial hardware, with counters of what was asked of it. -/
structure Uart where
  incoming : List Uart.Event
  /-- Most bytes that one write accepts, if there is a bound. -/
  writeMax : Quota
  /-- How many more bytes can be written at all, if there is a bound. -/
  txRoom : Quota
  /-- How many flushes succeed at all, if there is a bound. -/
  flushRoom : Quota
  checks : Nat
  writes : Nat
  /-- Number of flushes that succeeded. -/
  flushes : Nat
  /-- Total delay in nanoseconds. -/
  elapsed : Nat
  sent : Array UInt8

namespace Uart

/-- Hardware that nothing has been asked of. -/
def ofEvents (incoming : List Event) (writeMax txRoom flushRoom : Quota) : Uart :=
  ⟨incoming, writeMax, txRoom, flushRoom, 0, 0, 0, 0, #[]⟩

/-- What a readiness check finds, and the queue after it. -/
def checkReady : List Event → Except Failure Bool × List Event
  | [] => (.ok false, [])
  | .wait :: rest => (.ok false, rest)
  | .readyError :: rest => (.error .ready, rest)
  | event :: rest => (.ok true, event :: rest)

/-- Whether a read would find something at once. -/
def readReady : Attempt Uart Failure Bool :=
  ⟨fun u =>
    let found := checkReady u.incoming
    (found.1, { u with incoming := found.2, checks := u.checks + 1 })⟩

/-- What a read of one byte finds, and the queue after it. A read has no use for readiness and
passes over what only a check would notice. -/
def nextByte : List Event → Except Failure (Option UInt8) × List Event
  | [] => (.ok none, [])
  | .wait :: rest => nextByte rest
  | .readyError :: rest => nextByte rest
  | .eof :: rest => (.ok none, rest)
  | .readError :: rest => (.error .read, rest)
  | .byte b :: rest => (.ok (some b), rest)

/-- Reads one byte, or reports the end of the stream. -/
def read : Attempt Uart Failure (Option UInt8) :=
  ⟨fun u =>
    let next := nextByte u.incoming
    (next.1, { u with incoming := next.2 })⟩

/-- Offers a run of bytes to the transmitter, which says how many it took. Taking none is an
error. -/
def write (bs : Bytes) : Attempt Uart Failure Nat :=
  ⟨fun u =>
    let taken := u.txRoom.take (u.writeMax.take bs)
    if taken = [] then (.error .write, { u with writes := u.writes + 1 })
    else
      (.ok taken.length,
        { u with
          writes := u.writes + 1
          sent := u.sent ++ taken
          txRoom := u.txRoom.use taken.length })⟩

/-- Writes a run of bytes to some hardware in as many writes as it takes. -/
def push : Bytes → Uart → Except Failure Unit × Uart
  | [], u => (.ok (), u)
  | b :: bs, u =>
    match (write (b :: bs)).run u with
    | (.error e, u) => (.error e, u)
    | (.ok taken, u) => push (bs.drop (taken - 1)) u
termination_by bs => bs.length
decreasing_by
  simp only [List.length_drop, List.length_cons]
  omega

/-- Writes a run of bytes in as many writes as it takes. -/
def writeAll (bs : Bytes) : Attempt Uart Failure Unit :=
  ⟨push bs⟩

/-- Waits until everything written has left. -/
def flush : Attempt Uart Failure Unit :=
  ⟨fun u =>
    if u.flushRoom.any (· ≤ u.flushes) then (.error .flush, u)
    else (.ok (), { u with flushes := u.flushes + 1 })⟩

/-- Lets a number of microseconds pass. -/
def delay (micros : Nat) (u : Uart) : Uart :=
  { u with elapsed := u.elapsed + 1000 * micros }

theorem nextByte_some_length_lt {events : List Event} {b : UInt8}
    (h : (nextByte events).1 = .ok (some b)) :
    (nextByte events).2.length < events.length := by
  fun_induction nextByte events with
  | case1 => cases h
  | case2 rest ih => exact Nat.lt_succ_of_lt (ih h)
  | case3 rest ih => exact Nat.lt_succ_of_lt (ih h)
  | case4 rest => cases h
  | case5 rest => cases h
  | case6 b rest => exact Nat.lt_succ_self _

theorem checkReady_length_le (events : List Event) :
    (checkReady events).2.length ≤ events.length := by
  unfold checkReady
  split
  · exact Nat.le_refl _
  · exact Nat.le_succ _
  · exact Nat.le_succ _
  · exact Nat.le_refl _

theorem read_incoming_lt {b : UInt8} {u u' : Uart} (h : read.run u = (.ok (some b), u')) :
    u'.incoming.length < u.incoming.length := by
  obtain ⟨hb, rfl⟩ := Prod.mk.inj h
  exact nextByte_some_length_lt hb

theorem readReady_incoming_le {found : Except Failure Bool} {u u' : Uart}
    (h : readReady.run u = (found, u')) : u'.incoming.length ≤ u.incoming.length := by
  obtain ⟨-, rfl⟩ := Prod.mk.inj h
  exact checkReady_length_le _

theorem write_incoming {bs : Bytes} {k : Nat} {u u' : Uart} (h : (write bs).run u = (.ok k, u')) :
    u'.incoming = u.incoming := by
  simp only [write] at h
  split at h <;> cases h
  rfl

theorem push_incoming {bs : Bytes} {u u' : Uart} (h : push bs u = (.ok (), u')) :
    u'.incoming = u.incoming := by
  fun_induction push bs u with
  | case1 => cases h; rfl
  | case2 => cases h
  | case3 u b bs taken v hw ih => exact (ih h).trans (write_incoming hw)

theorem writeAll_incoming {bs : Bytes} {u u' : Uart} (h : (writeAll bs).run u = (.ok (), u')) :
    u'.incoming = u.incoming :=
  push_incoming h

theorem flush_incoming {u u' : Uart} (h : flush.run u = (.ok (), u')) :
    u'.incoming = u.incoming := by
  simp only [flush] at h
  split at h <;> cases h
  rfl

end Uart

end SignedBoot.Device

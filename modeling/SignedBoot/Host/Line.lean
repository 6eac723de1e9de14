import SignedBoot.Attempt
import SignedBoot.Host.Failure
import SignedBoot.Quota

/-!
# The host's end of the line

A serial line with a clock. What will arrive is a list of events fixed in advance: bytes, the end
of the stream, errors, and stretches of silence. The end of a stretch is fixed when a read first
meets it, and the stretch goes on until then even if that read gives up meanwhile. When the list is
used up there is silence for ever.

Time is counted in milliseconds and moves only while the host waits.
-/

namespace SignedBoot.Host

/-- One thing that happens on the incoming side. -/
inductive LineEvent where
  | byte (b : UInt8)
  /-- Nothing arrives for a number of milliseconds. -/
  | silence (millis : Nat)
  | eof
  | error (k : IoKind)
  deriving DecidableEq, Repr

/-- The state of the line. -/
structure Line where
  /-- What is still to happen. -/
  incoming : List LineEvent
  /-- When the stretch of silence in front ends, once a read has met it. -/
  silentUntil : Option Nat
  now : Nat
  /-- Most bytes that one write takes, if there is a bound. -/
  writeMax : Quota
  /-- How many more bytes can be written at all, if there is a bound. -/
  txRoom : Quota
  /-- How many more flushes succeed, if there is a bound. -/
  flushRoom : Quota
  /-- How a write fails that has no room; without it such a write just takes nothing. -/
  txEnd : Option IoKind
  sent : Array UInt8

namespace Line

/-- A line that has not been used. -/
def ofEvents (incoming : List LineEvent) (writeMax txRoom flushRoom : Quota)
    (txEnd : Option IoKind) : Line :=
  ⟨incoming, none, 0, writeMax, txRoom, flushRoom, txEnd, #[]⟩

/-- Reads a byte that arrives by the deadline, if one does. -/
def readBy (deadline : Nat) (l : Line) : Except IoKind (Option UInt8) × Line :=
  match _h : l.incoming with
  | [] => (.ok none, { l with now := deadline })
  | .byte b :: rest => (.ok (some b), { l with incoming := rest })
  | .eof :: rest => (.error .unexpectedEof, { l with incoming := rest })
  | .error k :: rest => (.error k, { l with incoming := rest })
  | .silence millis :: rest =>
    let stop := l.silentUntil.getD (l.now + millis)
    if stop ≤ deadline then
      readBy deadline { l with incoming := rest, silentUntil := none, now := max l.now stop }
    else (.ok none, { l with silentUntil := some stop, now := deadline })
termination_by l.incoming.length
decreasing_by simp [_h]

/-- Reads a byte, giving up after a number of milliseconds. -/
def read (timeout : Nat) : Attempt Line IoKind (Option UInt8) :=
  ⟨fun l => readBy (l.now + timeout) l⟩

/-- Writes a run of bytes in as many writes as it takes, to a given line. -/
def push : Bytes → Line → Except IoKind Unit × Line
  | [], l => (.ok (), l)
  | b :: bs, l =>
    match l.txRoom.take (l.writeMax.take (b :: bs)) with
    | [] => (.error (l.txEnd.getD .writeZero), l)
    | first :: more =>
      push (bs.drop more.length)
        { l with
          sent := l.sent ++ first :: more
          txRoom := l.txRoom.use (more.length + 1) }
termination_by bs => bs.length
decreasing_by
  simp only [List.length_drop, List.length_cons]
  omega

/-- Writes a run of bytes in as many writes as it takes. -/
def writeAll (bs : Bytes) : Attempt Line IoKind Unit :=
  ⟨push bs⟩

/-- Waits until everything written has left. -/
def flush : Attempt Line IoKind Unit :=
  ⟨fun l =>
    match l.flushRoom.spend? with
    | none => (.error .brokenPipe, l)
    | some flushRoom => (.ok (), { l with flushRoom })⟩

/-- Lets a number of milliseconds pass. -/
def sleep (millis : Nat) (l : Line) : Line :=
  { l with now := l.now + millis }

/-- A byte that has been read is gone. -/
theorem readBy_incoming_lt {deadline : Nat} {b : UInt8} {l l' : Line}
    (h : readBy deadline l = (.ok (some b), l')) : l'.incoming.length < l.incoming.length := by
  fun_induction readBy deadline l with
  | case1 => cases h
  | case2 l b' rest heq => cases h; simp [heq]
  | case3 => cases h
  | case4 => cases h
  | case5 l millis rest heq stop hstop ih =>
    have := ih h
    simp only [heq, List.length_cons]
    exact Nat.lt_succ_of_lt this
  | case6 => cases h

theorem read_incoming_lt {timeout : Nat} {b : UInt8} {l l' : Line}
    (h : (read timeout).run l = (.ok (some b), l')) : l'.incoming.length < l.incoming.length :=
  readBy_incoming_lt h

end Line

end SignedBoot.Host

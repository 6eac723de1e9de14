import Mathlib.Data.List.Basic
import Mathlib.Tactic.Common
import SignedBoot.Proofs.Device.PollTiming
import SignedBoot.Proofs.Exchange.Handover

/-!
# Bytes collected while the receiver was off

Turning the receiver on is to drop what the hardware collected meanwhile. Dropping stops at the first
read that fails, and a hardware that was left alone during the erase sequence has every reason to report
an error in between. What stands behind that error stays in the queue, and later uses of the line hand
it out as if it had just arrived.
-/

namespace SignedBoot.Device

namespace Uart

/-- The bytes in a receive queue, in order. -/
def bytes (events : List Event) : Bytes :=
  events.filterMap fun
    | .byte b => some b
    | _ => none

/-- The part of a queue behind its first read error, which is empty if there is none. -/
def behindError (events : List Event) : List Event :=
  (events.dropWhile (· ≠ .readError)).tail

/-- Whether a queue has nothing ready at the moment. -/
def Idle (events : List Event) : Prop :=
  events = [] ∨ ∃ rest, events = .wait :: rest

theorem bytes_append (xs ys : List Event) : bytes (xs ++ ys) = bytes xs ++ bytes ys :=
  List.filterMap_append

theorem bytes_eq_nil_iff {events : List Event} : bytes events = [] ↔ ∀ b, .byte b ∉ events := by
  rw [bytes, List.filterMap_eq_nil_iff]
  constructor
  · intro h b hb
    cases h _ hb
  · intro h e he
    cases e with
    | byte b => exact absurd he (h b)
    | _ => rfl

/-- A check takes no byte. -/
theorem bytes_checkReady (events : List Event) : bytes (checkReady events).2 = bytes events := by
  rcases events with _ | ⟨_ | _ | _ | _ | _, events⟩ <;> rfl

theorem bytes_nextByte (events : List Event) :
    bytes events = (nextByte events).1.toOption.join.toList ++ bytes (nextByte events).2 := by
  fun_induction nextByte events with
  | case1 => rfl
  | case2 rest ih => exact ih
  | case3 rest ih => exact ih
  | case4 rest => rfl
  | case5 rest => rfl
  | case6 b rest => rfl

/-- A read takes something from every queue that is not empty. -/
theorem length_nextByte_lt {events : List Event} (h : events ≠ []) :
    (nextByte events).2.length < events.length := by
  fun_induction nextByte events with
  | case1 => exact absurd rfl h
  | case2 rest ih =>
    by_cases hrest : rest = []
    · rw [hrest]
      exact Nat.lt_succ_self _
    · exact Nat.lt_succ_of_lt (ih hrest)
  | case3 rest ih =>
    by_cases hrest : rest = []
    · rw [hrest]
      exact Nat.lt_succ_self _
    · exact Nat.lt_succ_of_lt (ih hrest)
  | case4 rest => exact Nat.lt_succ_self _
  | case5 rest => exact Nat.lt_succ_self _
  | case6 b rest => exact Nat.lt_succ_self _

/-- The bytes that stay when a queue is dropped whose ready part holds bytes and read errors: those of
the ready part behind its first read error, and those that come later. -/
theorem bytes_quietRest {queue later : List Event}
    (hqueue : ∀ e ∈ queue, e = .readError ∨ ∃ b, e = .byte b) (hlater : Idle later) :
    bytes (quietRest (queue ++ later)) = bytes (behindError queue) ++ bytes later := by
  induction queue with
  | nil => obtain rfl | ⟨rest, rfl⟩ := hlater <;> rfl
  | cons e queue ih =>
    obtain ⟨rfl | ⟨b, rfl⟩, hrest⟩ := List.forall_mem_cons.1 hqueue
    · exact bytes_append queue later
    · exact ih hrest

end Uart

namespace SerialLine

/-! ## Later uses of a line -/

/-- A later use of a line: waiting for a byte, or polling for one. -/
inductive Ask where
  | receive
  | poll (timeout : Nat)

/-- What it answers, and the line that it leaves. -/
def Ask.run : Ask → SerialLine → Except Failure (Option UInt8) × SerialLine
  | .receive, s => receiveReady.run s
  | .poll timeout, s => (SerialLine.poll timeout).run s

/-- The byte in an answer, if there is one. -/
def answered (answer : Except Failure (Option UInt8)) : Bytes :=
  answer.toOption.join.toList

/-- The bytes that later uses of a line get one after the other, whether or not some of them fail. -/
def got : List Ask → SerialLine → Bytes
  | [], _ => []
  | ask :: asks, s => answered (ask.run s).1 ++ got asks (ask.run s).2

theorem bytes_receiveReady (s : SerialLine) :
    Uart.bytes s.uart.incoming =
      answered (receiveReady.run s).1 ++ Uart.bytes (receiveReady.run s).2.uart.incoming := by
  have hnext := Uart.bytes_nextByte s.uart.incoming
  rw [run_receiveReady, uart_receive, hnext]
  refine congrArg (· ++ _) ?_
  simp only [receive, onUart, Uart.read, Attempt.run_bind]
  rcases Uart.nextByte s.uart.incoming with ⟨e | _ | b, rest⟩ <;> rfl

theorem bytes_readReady {found : Except Failure Bool} {s t : SerialLine}
    (h : readReady.run s = (found, t)) : Uart.bytes t.uart.incoming = Uart.bytes s.uart.incoming := by
  rw [run_readReady] at h
  obtain ⟨-, rfl⟩ := Prod.mk.inj h
  exact Uart.bytes_checkReady s.uart.incoming

theorem bytes_pollFrom (budget waited : Nat) (s : SerialLine) :
    Uart.bytes s.uart.incoming =
      answered (pollFrom budget waited s).1 ++
        Uart.bytes (pollFrom budget waited s).2.uart.incoming := by
  fun_induction pollFrom budget waited s with
  | case1 waited s e t hready => exact (bytes_readReady hready).symm
  | case2 waited s t hready => rw [← bytes_readReady hready, ← bytes_receiveReady]
  | case3 waited s t hready hle => exact (bytes_readReady hready).symm
  | case4 waited s t hready hle hclock => exact (bytes_readReady hready).symm
  | case5 waited s t hready hle hclock ih =>
    rw [← ih]
    exact (bytes_readReady hready).symm

/-- A use of a line hands out the next byte of the queue or none, and drops none. -/
theorem Ask.bytes_run (ask : Ask) (s : SerialLine) :
    Uart.bytes s.uart.incoming =
      answered (ask.run s).1 ++ Uart.bytes (ask.run s).2.uart.incoming := by
  cases ask with
  | receive => exact bytes_receiveReady s
  | poll timeout => exact bytes_pollFrom _ 0 s

/-- Later uses get bytes of the queue from the front on. -/
theorem got_prefix (asks : List Ask) (s : SerialLine) : got asks s <+: Uart.bytes s.uart.incoming := by
  induction asks generalizing s with
  | nil => exact List.nil_prefix
  | cons ask asks ih =>
    rw [got, ask.bytes_run s]
    exact (List.prefix_append_right_inj _).2 (ih _)

theorem length_receiveReady_lt {s : SerialLine} (h : s.uart.incoming ≠ []) :
    (receiveReady.run s).2.uart.incoming.length < s.uart.incoming.length := by
  rw [run_receiveReady, uart_receive]
  exact Uart.length_nextByte_lt h

/-- With patience all of them are got. -/
theorem exists_got_eq (s : SerialLine) : ∃ asks, got asks s = Uart.bytes s.uart.incoming := by
  induction hlen : s.uart.incoming.length using Nat.strong_induction_on generalizing s with
  | _ n ih =>
    by_cases hempty : s.uart.incoming = []
    · exact ⟨[], by rw [hempty]; rfl⟩
    · obtain ⟨asks, hgot⟩ := ih _ (hlen ▸ length_receiveReady_lt hempty) _ rfl
      refine ⟨.receive :: asks, ?_⟩
      rw [bytes_receiveReady s, ← hgot]
      rfl

theorem incoming_setReceive {s : SerialLine} (h : s.receiving = false) :
    (s.setReceive true).uart.incoming = Uart.quietRest s.uart.incoming := by
  unfold setReceive
  rw [h]
  exact drain_incoming s.uart

theorem setReceive_of_receiving {s : SerialLine} (h : s.receiving = true) : s.setReceive true = s := by
  obtain ⟨uart, receiving⟩ := s
  obtain rfl : receiving = true := h
  rfl

end SerialLine

open SerialLine

/-- On a line whose receiver was off, with bytes and read errors ready and nothing else until later,
turning the receiver on leaves the bytes behind the first read error: later uses of the line get them
and what comes later, in order. So none of the bytes collected is handed out exactly if none stands
behind a read error. A receiver that was on already stays as it is. -/
theorem stale_bytes_gone_iff {s : SerialLine} (hoff : s.receiving = false)
    {queue later : List Uart.Event} (h : s.uart.incoming = queue ++ later)
    (hqueue : ∀ e ∈ queue, e = .readError ∨ ∃ b, e = .byte b) (hlater : Uart.Idle later) :
    (∀ asks, got asks (s.setReceive true) <+:
        Uart.bytes (Uart.behindError queue) ++ Uart.bytes later) ∧
      (∃ asks, got asks (s.setReceive true) =
        Uart.bytes (Uart.behindError queue) ++ Uart.bytes later) ∧
      ((∀ asks, got asks (s.setReceive true) <+: Uart.bytes later) ↔
        ∀ b, .byte b ∉ Uart.behindError queue) ∧
      ∀ t : SerialLine, t.receiving = true → t.setReceive true = t := by
  have hleft : Uart.bytes (s.setReceive true).uart.incoming =
      Uart.bytes (Uart.behindError queue) ++ Uart.bytes later := by
    rw [incoming_setReceive hoff, h, Uart.bytes_quietRest hqueue hlater]
  have hall : ∃ asks, got asks (s.setReceive true) =
      Uart.bytes (Uart.behindError queue) ++ Uart.bytes later := by
    rw [← hleft]
    exact exists_got_eq _
  have hfront (asks : List Ask) : got asks (s.setReceive true) <+:
      Uart.bytes (Uart.behindError queue) ++ Uart.bytes later := by
    rw [← hleft]
    exact got_prefix asks _
  refine ⟨hfront, hall, ?_, fun t => setReceive_of_receiving⟩
  rw [← Uart.bytes_eq_nil_iff]
  constructor
  · intro hnone
    obtain ⟨asks, hgot⟩ := hall
    have hlen := (hgot ▸ hnone asks).length_le
    rw [List.length_append] at hlen
    exact List.length_eq_zero_iff.1 (by omega)
  · intro hnil asks
    have hgot := hfront asks
    rw [hnil, List.nil_append] at hgot
    exact hgot

/-- A line whose receiver is off, with a read error between two bytes. -/
def interruptedQueue : SerialLine :=
  ⟨.ofEvents [.byte 0x41, .readError, .byte 0x42] none none none, false⟩

/-- The second byte is received after the receiver was turned on. -/
theorem byte_behind_error_is_received :
    ¬ ∀ (s : SerialLine) (queue : List Uart.Event), s.receiving = false →
      (∀ e ∈ queue, e = .readError ∨ ∃ b, e = .byte b) → s.uart.incoming = queue →
        ∀ asks, got asks (s.setReceive true) = [] := by
  intro h
  have hleft : (interruptedQueue.setReceive true).uart.incoming = [.byte 0x42] :=
    incoming_setReceive rfl
  obtain ⟨asks, hgot⟩ := exists_got_eq (interruptedQueue.setReceive true)
  have hnone := h interruptedQueue [.byte 0x41, .readError, .byte 0x42] rfl (by simp) rfl asks
  rw [hnone, hleft] at hgot
  cases hgot

/-- A line whose receiver is off, with a read error behind a byte and another byte that comes later. -/
def collectedQueue : SerialLine :=
  ⟨.ofEvents [.byte 0x41, .readError, .wait, .byte 0x42] none none none, false⟩

theorem collected_byte_is_dropped :
    collectedQueue.receiving = false ∧
      collectedQueue.uart.incoming = [.byte 0x41, .readError] ++ [.wait, .byte 0x42] ∧
      ∀ asks, got asks (collectedQueue.setReceive true) <+: [0x42] := by
  have hqueue : collectedQueue.uart.incoming = [.byte 0x41, .readError] ++ [.wait, .byte 0x42] := rfl
  obtain ⟨-, -, hgone, -⟩ := stale_bytes_gone_iff rfl hqueue (by simp) (.inr ⟨_, rfl⟩)
  exact ⟨rfl, hqueue, hgone.2 fun b hb => by cases hb⟩

end SignedBoot.Device

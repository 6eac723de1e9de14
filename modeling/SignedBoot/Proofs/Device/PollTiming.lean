import Mathlib.Logic.Function.Iterate
import Mathlib.Tactic.Common
import SignedBoot.Device.SerialLine
import SignedBoot.Proofs.Device.Handshake

/-!
# How long a poll takes

A poll goes in rounds: a check whether a byte is ready and, if none is, a waiting step. The line after
some number of rounds that found nothing is the same function iterated, and all that a poll adds to it
is where it stops: at the first check that finds a byte or fails, or at the check behind the step that
uses up the budget. So its checks, its steps and its answer can be read off that sequence of lines.
-/

namespace SignedBoot.Device

open Layout

namespace SerialLine

/-! ## Rounds -/

/-- The line behind a check and a waiting step. -/
def round (s : SerialLine) : SerialLine :=
  waitStep (readReady.run s).2

/-- The check behind a number of rounds: what it finds and the line that it leaves. -/
def check (k : Nat) (s : SerialLine) : Except Failure Bool × SerialLine :=
  readReady.run (round^[k] s)

/-- Whether none of the first checks finds anything. -/
def Quiet (count : Nat) (s : SerialLine) : Prop :=
  ∀ i < count, (check i s).1 = .ok false

/-- Number of waiting steps that a number of microseconds takes. -/
def waitSteps (micros : Nat) : Nat :=
  (micros + (pollStep - 1)) / pollStep

theorem Quiet.mono {m n : Nat} {s : SerialLine} (h : Quiet n s) (hle : m ≤ n) : Quiet m s :=
  fun i hi => h i (Nat.lt_of_lt_of_le hi hle)

/-- A check looks at the receive queue and counts as one; it takes no time and no byte. -/
theorem run_readReady (s : SerialLine) :
    readReady.run s = ((Uart.checkReady s.uart.incoming).1.mapError .io,
      { s with
        uart.incoming := (Uart.checkReady s.uart.incoming).2
        uart.checks := s.uart.checks + 1 }) := by
  simp only [readReady, onUart, Uart.readReady]
  rcases Uart.checkReady s.uart.incoming with ⟨e | found, rest⟩ <;> rfl

theorem uart_check (k : Nat) (s : SerialLine) :
    (check k s).2.uart.checks = (round^[k] s).uart.checks + 1 ∧
      (check k s).2.uart.elapsed = (round^[k] s).uart.elapsed := by
  rw [check, run_readReady]
  exact ⟨rfl, rfl⟩

theorem uart_round (s : SerialLine) :
    (round s).uart.checks = s.uart.checks + 1 ∧
      (round s).uart.elapsed = s.uart.elapsed + 1000 * pollStep := by
  rw [round, run_readReady]
  exact ⟨rfl, rfl⟩

theorem uart_rounds (k : Nat) (s : SerialLine) :
    (round^[k] s).uart.checks = s.uart.checks + k ∧
      (round^[k] s).uart.elapsed = s.uart.elapsed + 1000 * (pollStep * k) := by
  induction k with
  | zero => exact ⟨rfl, rfl⟩
  | succ k ih =>
    obtain ⟨hchecks, helapsed⟩ := uart_round (round^[k] s)
    rw [Function.iterate_succ_apply', hchecks, helapsed, ih.1, ih.2]
    refine ⟨Nat.add_assoc _ k 1, ?_⟩
    rw [Nat.mul_succ pollStep k, Nat.mul_add 1000 (pollStep * k) pollStep, Nat.add_assoc]

/-- The check with number `k` is the `k + 1`st, and comes after `k` waiting steps. -/
theorem cost_check (k : Nat) (s : SerialLine) :
    (check k s).2.uart.checks = s.uart.checks + k + 1 ∧
      (check k s).2.uart.elapsed = s.uart.elapsed + 1000 * (pollStep * k) := by
  obtain ⟨hchecks, helapsed⟩ := uart_rounds k s
  rw [(uart_check k s).1, (uart_check k s).2, hchecks, helapsed]
  exact ⟨rfl, rfl⟩

/-! ## The loop -/

theorem run_receiveReady (s : SerialLine) :
    receiveReady.run s = ((receive.run s).1.map some, (receive.run s).2) := by
  rw [receiveReady, Attempt.run_bind]
  rcases receive.run s with ⟨e | b, t⟩ <;> rfl

section
variable {budget waited : Nat} {s : SerialLine}

theorem pollFrom_ready (h : (readReady.run s).1 = .ok true) :
    pollFrom budget waited s = receiveReady.run (readReady.run s).2 := by
  rw [pollFrom]
  split
  · next heq => rw [heq] at h; cases h
  · next heq => rw [heq]
  · next heq => rw [heq] at h; cases h

theorem pollFrom_failed {e : Failure} (h : (readReady.run s).1 = .error e) :
    pollFrom budget waited s = (.error e, (readReady.run s).2) := by
  rw [pollFrom]
  split
  · next heq => rw [heq] at h ⊢; cases h; rfl
  · next heq => rw [heq] at h; cases h
  · next heq => rw [heq] at h; cases h

theorem pollFrom_of_quiet (h : (readReady.run s).1 = .ok false) :
    pollFrom budget waited s =
      if budget ≤ waited then (.ok none, (readReady.run s).2)
      else if maxMicros < waited + pollStep then (.error .clockOverflow, round s)
      else pollFrom budget (waited + pollStep) (round s) := by
  rw [pollFrom]
  split
  · next heq => rw [heq] at h; cases h
  · next heq => rw [heq] at h; cases h
  · next heq => rw [round, heq]

end

/-- As long as the budget lasts and no check finds anything a poll goes on, round after round. -/
theorem pollFrom_rounds {budget k : Nat} {s : SerialLine} (hquiet : Quiet k s)
    (hbudget : ∀ i < k, pollStep * i < budget) (hclock : pollStep * k ≤ maxMicros) :
    pollFrom budget 0 s = pollFrom budget (pollStep * k) (round^[k] s) := by
  induction k with
  | zero => rfl
  | succ k ih =>
    have hbefore := ih (hquiet.mono (Nat.le_succ k)) (fun i hi => hbudget i (Nat.lt_succ_of_lt hi))
      (Nat.le_trans (Nat.mul_le_mul_left _ (Nat.le_succ k)) hclock)
    have hlast : (readReady.run (round^[k] s)).1 = .ok false := hquiet k (Nat.lt_succ_self k)
    have hclock' : ¬ maxMicros < pollStep * k + pollStep := Nat.not_lt_of_le hclock
    rw [hbefore, pollFrom_of_quiet hlast, if_neg (Nat.not_le_of_lt (hbudget k (Nat.lt_succ_self k))),
      if_neg hclock', Function.iterate_succ_apply']
    rfl

/-! ## A whole poll -/

section
variable {timeout k : Nat} {s : SerialLine} (h : timeout / 1000 ≤ maxMicros - (pollStep - 1))
  (hk : k ≤ waitSteps (timeout / 1000)) (hquiet : Quiet k s)
include h hk hquiet

/-- A poll whose first checks find nothing is where it would be after as many rounds, and its counter
has not overflowed. -/
theorem poll_rounds :
    (poll timeout).run s = pollFrom (timeout / 1000) (pollStep * k) (round^[k] s) := by
  have hmicros : timeout / 1000 ≤ 0xFFFFFFFFFFFFFFFF - 9 := h
  have hsteps : k ≤ (timeout / 1000 + 9) / 10 := hk
  have hmin : min (timeout / 1000) maxMicros = timeout / 1000 :=
    Nat.min_eq_left (Nat.le_trans h (Nat.sub_le _ _))
  show pollFrom (min (timeout / 1000) maxMicros) 0 s = _
  rw [hmin]
  refine pollFrom_rounds hquiet (fun i hi => ?_) ?_
  · show 10 * i < timeout / 1000
    omega
  · show 10 * k ≤ 0xFFFFFFFFFFFFFFFF
    omega

theorem poll_ready (hready : (check k s).1 = .ok true) :
    (poll timeout).run s =
      ((receive.run (check k s).2).1.map some, (receive.run (check k s).2).2) := by
  rw [poll_rounds h hk hquiet, pollFrom_ready hready, run_receiveReady]
  rfl

theorem poll_failed {e : Failure} (hfailed : (check k s).1 = .error e) :
    (poll timeout).run s = (.error e, (check k s).2) := by
  rw [poll_rounds h hk hquiet, pollFrom_failed hfailed]
  rfl

end

theorem poll_silent {timeout : Nat} {s : SerialLine}
    (h : timeout / 1000 ≤ maxMicros - (pollStep - 1))
    (hquiet : Quiet (waitSteps (timeout / 1000) + 1) s) :
    (poll timeout).run s = (.ok none, (check (waitSteps (timeout / 1000)) s).2) := by
  have hover : timeout / 1000 ≤ pollStep * waitSteps (timeout / 1000) := by
    show timeout / 1000 ≤ 10 * ((timeout / 1000 + 9) / 10)
    omega
  have hlast := hquiet (waitSteps (timeout / 1000)) (Nat.lt_succ_self _)
  rw [poll_rounds h (Nat.le_refl _) (hquiet.mono (Nat.le_succ _)), pollFrom_of_quiet hlast,
    if_pos hover]
  rfl

/-- Either no check of a number of them finds anything, or there is a first that does. -/
theorem quiet_or_first (count : Nat) (s : SerialLine) :
    Quiet count s ∨ ∃ k < count, Quiet k s ∧ (check k s).1 ≠ .ok false := by
  induction count with
  | zero => exact .inl fun i hi => absurd hi (Nat.not_lt_zero i)
  | succ count ih =>
    rcases ih with hquiet | ⟨k, hk, hfirst⟩
    · by_cases hlast : (check count s).1 = .ok false
      · refine .inl fun i hi => ?_
        rcases Nat.lt_succ_iff_lt_or_eq.1 hi with hi | rfl
        · exact hquiet i hi
        · exact hlast
      · exact .inr ⟨count, Nat.lt_succ_self count, hquiet, hlast⟩
    · exact .inr ⟨k, Nat.lt_succ_of_lt hk, hfirst⟩

/-- A byte that is received is taken from the queue, and nothing else changes. -/
theorem uart_receive (s : SerialLine) :
    (receive.run s).2.uart =
      { s.uart with incoming := (Uart.nextByte s.uart.incoming).2 } := by
  simp only [receive, onUart, Uart.read, Attempt.run_bind]
  rcases Uart.nextByte s.uart.incoming with ⟨e | b | _, rest⟩ <;> rfl

/-- How a poll goes that lasts for some number of waiting steps. There is a check in front of the first
step and one behind each step. The first that finds a byte ends the poll with what one receive gives,
the first that fails ends it with that failure, and if there is none the poll ends empty-handed behind
the last step. -/
structure PollsFor (steps : Nat) (s : SerialLine)
    (ending : Except Failure (Option UInt8) × SerialLine) : Prop where
  ready : ∀ k ≤ steps, Quiet k s → (check k s).1 = .ok true →
    ending = ((receive.run (check k s).2).1.map some, (receive.run (check k s).2).2)
  failed : ∀ k ≤ steps, ∀ e, Quiet k s → (check k s).1 = .error e → ending = (.error e, (check k s).2)
  silent : Quiet (steps + 1) s → ending = (.ok none, (check steps s).2)
  none_iff : ending.1 = .ok none ↔ Quiet (steps + 1) s
  clock : ending.1 ≠ .error .clockOverflow
  cost : ∃ k ≤ steps, ending.2.uart.checks = s.uart.checks + k + 1 ∧
    ending.2.uart.elapsed = s.uart.elapsed + 1000 * (pollStep * k)

/-- What a receive gives is neither nothing nor a matter of the clock. -/
theorem receive_ne (s : SerialLine) :
    (receive.run s).1.map some ≠ .ok none ∧
      (receive.run s).1.map some ≠ .error .clockOverflow := by
  simp only [receive, onUart, Uart.read, Attempt.run_bind]
  rcases Uart.nextByte s.uart.incoming with ⟨e | _ | b, rest⟩ <;> simp [Except.map]

theorem ne_clockOverflow_of_check {k : Nat} {s : SerialLine} {e : Failure}
    (h : (check k s).1 = .error e) : e ≠ .clockOverflow := by
  rw [check, run_readReady] at h
  change (Uart.checkReady (round^[k] s).uart.incoming).1.mapError .io = .error e at h
  cases hfound : (Uart.checkReady (round^[k] s).uart.incoming).1 with
  | error cause =>
    rw [hfound] at h
    obtain rfl := Except.error.inj h
    exact Failure.noConfusion
  | ok found =>
    rw [hfound] at h
    cases h

section
variable {timeout : Nat} (s : SerialLine) (h : timeout / 1000 ≤ maxMicros - (pollStep - 1))
include h

/-- A poll ends behind its last step if no check finds anything, and else at the first that does. -/
theorem poll_cases :
    (Quiet (waitSteps (timeout / 1000) + 1) s ∧
        (poll timeout).run s = (.ok none, (check (waitSteps (timeout / 1000)) s).2)) ∨
      ∃ k ≤ waitSteps (timeout / 1000), ¬ Quiet (k + 1) s ∧
        ((∃ e, (check k s).1 = .error e ∧ (poll timeout).run s = (.error e, (check k s).2)) ∨
          (poll timeout).run s =
            ((receive.run (check k s).2).1.map some, (receive.run (check k s).2).2)) := by
  rcases quiet_or_first (waitSteps (timeout / 1000) + 1) s with hquiet | ⟨k, hk, hquiet, hfirst⟩
  · exact .inl ⟨hquiet, poll_silent h hquiet⟩
  · have hle := Nat.le_of_lt_succ hk
    refine .inr ⟨k, hle, fun hall => hfirst (hall k (Nat.lt_succ_self k)), ?_⟩
    match hfound : (check k s).1 with
    | .error e => exact .inl ⟨e, rfl, poll_failed h hle hquiet hfound⟩
    | .ok true => exact .inr (poll_ready h hle hquiet hfound)
    | .ok false => exact absurd hfound hfirst

theorem pollsFor_poll : PollsFor (waitSteps (timeout / 1000)) s ((poll timeout).run s) where
  ready _ hk hquiet hready := poll_ready h hk hquiet hready
  failed _ hk _ hquiet hfailed := poll_failed h hk hquiet hfailed
  silent := poll_silent h
  none_iff := by
    rcases poll_cases s h with ⟨hquiet, hrun⟩ | ⟨k, hk, hnot, ⟨e, -, hrun⟩ | hrun⟩
    · exact iff_of_true (by rw [hrun]) hquiet
    · refine iff_of_false ?_ fun hall => hnot (hall.mono (Nat.succ_le_succ hk))
      rw [hrun]
      simp
    · refine iff_of_false ?_ fun hall => hnot (hall.mono (Nat.succ_le_succ hk))
      rw [hrun]
      exact (receive_ne _).1
  clock := by
    rcases poll_cases s h with ⟨-, hrun⟩ | ⟨k, -, -, ⟨e, hfailed, hrun⟩ | hrun⟩
    · rw [hrun]
      simp
    · rw [hrun]
      exact fun hclock => ne_clockOverflow_of_check hfailed (Except.error.inj hclock)
    · rw [hrun]
      exact (receive_ne _).2
  cost := by
    rcases poll_cases s h with ⟨-, hrun⟩ | ⟨k, hk, -, ⟨e, -, hrun⟩ | hrun⟩
    · rw [hrun]
      exact ⟨_, Nat.le_refl _, cost_check _ s⟩
    · rw [hrun]
      exact ⟨k, hk, cost_check k s⟩
    · rw [hrun, uart_receive]
      exact ⟨k, hk, cost_check k s⟩

end

/-! ## Silence -/

/-- Nothing is ready at the next moments at which a line is checked, and no check fails. -/
def SilentFor (count : Nat) (s : SerialLine) : Prop :=
  ∀ e ∈ s.uart.incoming.take count, e = .wait

theorem SilentFor.mono {m n : Nat} {s : SerialLine} (h : SilentFor n s) (hle : m ≤ n) :
    SilentFor m s :=
  fun e he => h e ((List.take_prefix_take_left hle).subset he)

theorem SilentFor.checkReady {s : SerialLine} (h : SilentFor 1 s) :
    Uart.checkReady s.uart.incoming = (.ok false, s.uart.incoming.drop 1) := by
  unfold SilentFor at h
  rcases hincoming : s.uart.incoming with _ | ⟨event, rest⟩
  · rfl
  · rw [hincoming] at h
    obtain rfl : event = .wait := h event List.mem_cons_self
    rfl

/-- What is left of a silence of `m + n` moments `m` moments later. -/
theorem SilentFor.drop {m n : Nat} {s t : SerialLine} (h : SilentFor (m + n) s)
    (hincoming : t.uart.incoming = s.uart.incoming.drop m) : SilentFor n t := by
  intro e he
  rw [hincoming] at he
  refine h e ?_
  rw [List.take_add]
  exact List.mem_append_right _ he

theorem SilentFor.incoming_rounds {k : Nat} {s : SerialLine} (h : SilentFor k s) :
    (round^[k] s).uart.incoming = s.uart.incoming.drop k := by
  induction k with
  | zero => rfl
  | succ k ih =>
    have hbefore := ih (h.mono (Nat.le_succ k))
    have hready := SilentFor.checkReady (h.drop hbefore)
    rw [Function.iterate_succ_apply', round, run_readReady, hready]
    show (round^[k] s).uart.incoming.drop 1 = _
    rw [hbefore, List.drop_drop]

theorem SilentFor.check {k : Nat} {s : SerialLine} (h : SilentFor (k + 1) s) :
    (check k s).1 = .ok false ∧ (check k s).2.uart.incoming = s.uart.incoming.drop (k + 1) := by
  have hbefore := (h.mono (Nat.le_succ k)).incoming_rounds
  have hready := SilentFor.checkReady (h.drop hbefore)
  rw [SerialLine.check, run_readReady, hready]
  refine ⟨rfl, ?_⟩
  show (round^[k] s).uart.incoming.drop 1 = _
  rw [hbefore, List.drop_drop]

theorem SilentFor.quiet {count : Nat} {s : SerialLine} (h : SilentFor count s) : Quiet count s :=
  fun _ hi => (h.mono hi).check.1

/-! ## The window for a host -/

/-- Number of checks that a poll for the handshake makes at most. -/
abbrev pollChecks : Nat := waitSteps pollInterval + 1

theorem pollsFor_interval (s : SerialLine) :
    PollsFor (waitSteps pollInterval) s ((poll (1000 * pollInterval)).run s) := by
  have hmicros : 1000 * pollInterval / 1000 ≤ maxMicros - (pollStep - 1) := by decide
  exact pollsFor_poll s hmicros

theorem elapsed_poll_le (s : SerialLine) :
    ((poll (1000 * pollInterval)).run s).2.uart.elapsed ≤ s.uart.elapsed + 1000 * pollInterval := by
  obtain ⟨k, hk, -, helapsed⟩ := (pollsFor_interval s).cost
  have hsteps : k ≤ 100 := hk
  rw [helapsed]
  show s.uart.elapsed + 1000 * (10 * k) ≤ s.uart.elapsed + 1000 * 1000
  omega

theorem channel_poll (timeout : Nat) :
    (Channel.poll timeout : Attempt SerialLine Failure (Option UInt8)) = poll timeout := rfl

theorem channel_setReceive (on : Bool) (s : SerialLine) :
    Channel.setReceive on s = s.setReceive on := rfl

/-- Listening waits no longer than all its polls together. -/
theorem elapsed_listen_le (left matched : Nat) (s : SerialLine) :
    ((listen left matched : Attempt SerialLine Failure Bool).run s).2.uart.elapsed ≤
      s.uart.elapsed + left * (1000 * pollInterval) := by
  induction left generalizing matched s with
  | zero => exact Nat.le_add_right _ _
  | succ left ih =>
    have hpoll := elapsed_poll_le s
    rw [run_listen_succ, channel_poll, Nat.succ_mul left, Nat.add_comm (left * _), ← Nat.add_assoc]
    generalize (poll (1000 * pollInterval)).run s = ending at hpoll ⊢
    obtain ⟨e | _ | b, t⟩ := ending
    · exact Nat.le_trans hpoll (Nat.le_add_right _ _)
    · exact Nat.le_trans (ih matched t) (Nat.add_le_add_right hpoll _)
    · dsimp only
      split
      · exact Nat.le_trans hpoll (Nat.le_add_right _ _)
      · exact Nat.le_trans (ih _ t) (Nat.add_le_add_right hpoll _)

/-- On a silent line listening finds nothing and waits through all its polls. -/
theorem listen_silent {left matched : Nat} {s : SerialLine} (h : SilentFor (left * pollChecks) s) :
    ∃ s', (listen left matched : Attempt SerialLine Failure Bool).run s = (.ok false, s') ∧
      s'.uart.elapsed = s.uart.elapsed + left * (1000 * pollInterval) := by
  induction left generalizing s with
  | zero =>
    refine ⟨s, rfl, ?_⟩
    rw [Nat.zero_mul, Nat.add_zero]
  | succ left ih =>
    rw [Nat.succ_mul, Nat.add_comm] at h
    have hfirst : SilentFor pollChecks s := h.mono (Nat.le_add_right _ _)
    have hpoll := (pollsFor_interval s).silent hfirst.quiet
    have hsteps : pollStep * waitSteps pollInterval = pollInterval := by decide
    obtain ⟨s', hrun, helapsed⟩ := ih (h.drop hfirst.check.2)
    refine ⟨s', ?_, ?_⟩
    · rw [run_listen_succ, channel_poll, hpoll]
      exact hrun
    · rw [helapsed, (cost_check _ s).2, hsteps, Nat.succ_mul left, Nat.add_assoc,
        Nat.add_comm (1000 * pollInterval)]

theorem elapsed_of_readReady {found : Except Uart.Failure Bool} {u u' : Uart}
    (h : Uart.readReady.run u = (found, u')) : u'.elapsed = u.elapsed := by
  obtain ⟨-, rfl⟩ := Prod.mk.inj h
  rfl

theorem elapsed_of_read {found : Except Uart.Failure (Option UInt8)} {u u' : Uart}
    (h : Uart.read.run u = (found, u')) : u'.elapsed = u.elapsed := by
  obtain ⟨-, rfl⟩ := Prod.mk.inj h
  rfl

/-- Dropping bytes takes no time. -/
theorem elapsed_drain (u : Uart) : (drain u).elapsed = u.elapsed := by
  fun_induction drain u with
  | case1 u u1 hready b u2 hread ih =>
    rw [ih, elapsed_of_read hread, elapsed_of_readReady hready]
  | case2 u u1 hready u2 hread => rw [elapsed_of_read hread, elapsed_of_readReady hready]
  | case3 u u1 hready e u2 hread => rw [elapsed_of_read hread, elapsed_of_readReady hready]
  | case4 u u1 hready => exact elapsed_of_readReady hready
  | case5 u e u1 hready => exact elapsed_of_readReady hready

theorem elapsed_setReceive (on : Bool) (s : SerialLine) :
    (s.setReceive on).uart.elapsed = s.uart.elapsed := by
  unfold setReceive
  split
  · exact elapsed_drain s.uart
  · rfl

end SerialLine

open SerialLine

/-- A poll of `b` microseconds checks once before its first waiting step and once behind each step, up
to `b / 10` steps rounded up. It ends at the first check that finds a byte, with what one receive gives,
or that fails; it finds nothing exactly if all those checks find nothing, has then waited for all those
steps, and its clock never overflows. So listening for a host never waits longer than all its polls
together, and exactly as long if nothing arrives meanwhile. -/
theorem poll_timing {timeout : Nat} (s : SerialLine)
    (h : timeout / 1000 ≤ maxMicros - (pollStep - 1)) :
    PollsFor (waitSteps (timeout / 1000)) s ((poll timeout).run s) ∧
      (∀ k, (check k s).2.uart.checks = s.uart.checks + k + 1 ∧
        (check k s).2.uart.elapsed = s.uart.elapsed + 1000 * (pollStep * k)) ∧
      ((awaitHandshake : Attempt SerialLine Failure Bool).run s).2.uart.elapsed ≤
        s.uart.elapsed + pollLimit * (1000 * pollInterval) ∧
      (SilentFor (pollLimit * pollChecks) (s.setReceive true) →
        ∃ s', (awaitHandshake : Attempt SerialLine Failure Bool).run s = (.ok false, s') ∧
          s'.uart.elapsed = s.uart.elapsed + pollLimit * (1000 * pollInterval)) := by
  have hlisten : (awaitHandshake : Attempt SerialLine Failure Bool).run s =
      (listen pollLimit 0).run (s.setReceive true) := by
    rw [run_awaitHandshake, channel_setReceive]
  refine ⟨pollsFor_poll s h, fun k => cost_check k s, ?_, fun hsilent => ?_⟩
  · rw [hlisten, ← elapsed_setReceive true s]
    exact elapsed_listen_le pollLimit 0 (s.setReceive true)
  · rw [hlisten, ← elapsed_setReceive true s]
    exact listen_silent hsilent

/-- A line on which a byte is ready at the third check. -/
def lateByte : SerialLine :=
  .ofUart (.ofEvents [.wait, .wait, .byte 0x42] none none none)

/-- In fifteen microseconds and a half there are two waiting steps, and the byte is found behind the
second. -/
theorem late_byte_is_polled :
    15500 / 1000 ≤ maxMicros - (pollStep - 1) ∧
      ((poll 15500).run lateByte).1 = .ok (some 0x42) ∧
      ((poll 15500).run lateByte).2.uart.checks = 3 ∧
      ((poll 15500).run lateByte).2.uart.elapsed = 20000 := by
  have hmicros : 15500 / 1000 ≤ maxMicros - (pollStep - 1) := by decide
  have hsilent : SilentFor 2 lateByte := by
    unfold SilentFor
    decide
  obtain ⟨hpolls, hcost, -, -⟩ := poll_timing lateByte hmicros
  rw [hpolls.ready 2 (by decide) hsilent.quiet rfl, uart_receive]
  exact ⟨hmicros, rfl, hcost 2⟩

-- a byte that is ready at the fourth check comes too late
example :
    ((poll 15500).run (.ofUart (.ofEvents [.wait, .wait, .wait, .byte 0x42] none none none))).1 =
      .ok none := by
  cbv

end SignedBoot.Device

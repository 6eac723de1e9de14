import SignedBoot.Attempt
import SignedBoot.Bytes

/-!
# The device's end of the line

The loader sees the host through a few operations on a byte-oriented channel. Everything that may
still arrive is finite, and a byte that has been received is gone: that is what the two laws of
`Channel` say, and why a loop that receives a byte per turn comes to an end.
-/

namespace SignedBoot.Device

/-- A channel to the host with state `σ` and failures `ε`. -/
class Channel (σ : Type) (ε : outParam Type) where
  /-- Sends one byte, returning once it has left. -/
  send : UInt8 → Attempt σ ε Unit
  /-- Sends a run of bytes. -/
  sendAll : Bytes → Attempt σ ε Unit := fun bs => bs.forM send
  /-- Waits for the next byte, however long it takes. -/
  receive : Attempt σ ε UInt8
  /-- Waits for the next byte for a number of nanoseconds at most. -/
  poll : Nat → Attempt σ ε (Option UInt8)
  /-- Turns the receiver on or off. -/
  setReceive : Bool → σ → σ
  /-- How much may still arrive. -/
  pending : σ → Nat
  /-- Sending brings in nothing. -/
  send_pending : ∀ {b s s'}, (send b).run s = (.ok (), s') → pending s' ≤ pending s
  /-- A received byte is gone. -/
  receive_pending : ∀ {b s s'}, receive.run s = (.ok b, s') → pending s' < pending s

end SignedBoot.Device

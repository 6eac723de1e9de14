import SignedBoot.Device.Script
import SignedBoot.Device.SerialLine
import SignedBoot.Device.PowerOn
import SignedBoot.Cli.Directory
import SignedBoot.Main
import SignedBoot.Proofs.Flash.Commands
import SignedBoot.Proofs.Flash.Programming
import SignedBoot.Proofs.Flash.EraseSequence
import SignedBoot.Proofs.Wire.Framing
import SignedBoot.Proofs.Wire.RequestCodec
import SignedBoot.Proofs.Wire.FrameDelimiters
import SignedBoot.Proofs.Device.RequestEffects
import SignedBoot.Proofs.Device.VectorProtection
import SignedBoot.Proofs.Device.ScriptedSession
import SignedBoot.Proofs.Device.BootDecision
import SignedBoot.Proofs.Device.Handshake
import SignedBoot.Proofs.Host.UpdateRequests
import SignedBoot.Proofs.Device.InstalledImage
import SignedBoot.Proofs.Device.UpdateSession
import SignedBoot.Proofs.Device.PowerCycles
import SignedBoot.Proofs.Device.UpdateThenBoot
import SignedBoot.Proofs.Device.WriteConfinement
import SignedBoot.Proofs.Device.InterruptedUpdate
import SignedBoot.Proofs.Exchange.Steps
import SignedBoot.Proofs.Exchange.Lockstep
import SignedBoot.Proofs.Exchange.LateKnocks
import SignedBoot.Proofs.Exchange.Handover
import SignedBoot.Proofs.Host.Admission
import SignedBoot.Proofs.Flash.EraseOutcome
import SignedBoot.Proofs.Device.FrameOrder
import SignedBoot.Proofs.Device.SessionTrace
import SignedBoot.Proofs.Device.Conversation
import SignedBoot.Proofs.Device.Trapping
import SignedBoot.Proofs.Device.TrapFreeRun
import SignedBoot.Proofs.Device.RunSafety
import SignedBoot.Proofs.Device.HashCoverage
import SignedBoot.Proofs.Wire.Resynchronization
import SignedBoot.Proofs.Device.HandshakeDetection
import SignedBoot.Proofs.Wire.Reencoding
import SignedBoot.Proofs.Flash.BlockWrites
import SignedBoot.Proofs.Wire.Leftovers
import SignedBoot.Proofs.Host.UpdateHistory
import SignedBoot.Proofs.Host.HandshakeWindows
import SignedBoot.Proofs.IntelHex.Memory
import SignedBoot.Proofs.Host.LoadedImage
import SignedBoot.Proofs.Host.PatchedMemory
import SignedBoot.Proofs.Device.PollTiming
import SignedBoot.Proofs.Device.StaleBytes
import SignedBoot.Proofs.IntelHex.RoundTrip
import SignedBoot.Proofs.Host.RecordCuts
import SignedBoot.Proofs.Wire.FrameBuilding
import SignedBoot.Proofs.Curve.MirroredSignatures

import Mathlib.Data.List.Basic
import Mathlib.Tactic.Common
import SignedBoot.Device.PowerOn
import SignedBoot.Proofs.Device.ResidentImage

/-!
# When the application is started

A run has two ways to go. If a host was heard the device takes an update, and whatever comes of
that, it resets. If none was heard the memory is only read, and the application is started exactly
if the resident image is genuine. Nothing else about the channel has a say in it, not even whether
the status byte that announces the decision can be sent.
-/

namespace SignedBoot.Device

open Flash Layout Wire

variable {n : Nat}

/-! ## Verification -/

theorem loaderBase_le_of_imageSize {m : Nor n} {size : Nat} (h : m.imageSize = .ok size) :
    loaderBase ≤ n := by
  by_contra hlt
  have hread : m.read sizeField sizeLen = .error .outOfBounds := if_neg hlt
  rw [Nor.imageSize, hread] at h
  cases h

theorem le_of_possibleSize {size : Nat} (hn : loaderBase ≤ n) (h : PossibleSize size) :
    size ≤ n := by
  have hfield : signatureField ≤ loaderBase := by decide
  exact Nat.le_trans h.2 (Nat.le_trans hfield hn)

/-- A verification gets as far as asking the signature check exactly if the record can be read and
holds a possible size. It then asks about the digest of the signed bytes. -/
theorem verify_eq_judged_iff (hash : Bytes → Digest) (check : Check) (key : Vector UInt8 33)
    (m : Nor n) (question : Question) (valid : Bool) :
    verify hash check key m = .ok (.judged question valid) ↔
      ∃ size signature, m.imageSize = .ok size ∧ PossibleSize size ∧
        m.signature = .ok signature ∧ question = ⟨hash (signedBytes m size), signature, key⟩ ∧
        check question.digest question.signature question.key = valid := by
  rw [verify_eq]
  rcases hsize : m.imageSize with e | size
  · constructor
    · intro h
      cases h
    · rintro ⟨_, _, h, -⟩
      cases h
  have hn : loaderBase ≤ n := loaderBase_le_of_imageSize hsize
  have hblock : blockSize ≤ n := Nat.le_trans (by decide) hn
  simp only [bind, Except.bind]
  by_cases hpossible : PossibleSize size
  · rw [if_pos hpossible, imageDigest_eq_ok hash m hblock (le_of_possibleSize hn hpossible)]
    rcases hsignature : m.signature with e | signature
    · constructor
      · intro h
        cases h
      · rintro ⟨_, _, -, -, h, -⟩
        cases h
    · constructor
      · intro h
        cases h
        exact ⟨size, signature, rfl, hpossible, rfl, rfl, rfl⟩
      · rintro ⟨_, _, hs, -, hg, rfl, rfl⟩
        cases hs
        cases hg
        rfl
  · rw [if_neg hpossible]
    constructor
    · intro h
      cases h
    · rintro ⟨_, _, hs, hp, -⟩
      cases hs
      exact absurd hp hpossible

/-- In a memory that reaches up to the loader everything that a verification reads can be read. -/
theorem verify_ne_error (hn : loaderBase ≤ n) (hash : Bytes → Digest) (check : Check)
    (key : Vector UInt8 33) (m : Nor n) (fault : Fault) : verify hash check key m ≠ .error fault := by
  obtain ⟨size, hsize⟩ : ∃ size, m.imageSize = .ok size := by
    rw [Nor.imageSize, m.read_eq_ok hn]
    exact ⟨_, rfl⟩
  have hfield : signatureField + signatureLen ≤ n := Nat.le_trans (by decide) hn
  obtain ⟨signature, hsignature⟩ : ∃ signature, m.signature = .ok signature := ⟨_, dif_pos hfield⟩
  rw [verify_eq, hsize]
  simp only [bind, Except.bind]
  by_cases hpossible : PossibleSize size
  · rw [if_pos hpossible, imageDigest_eq_ok hash m (Nat.le_trans (by decide) hn)
      (le_of_possibleSize hn hpossible), hsignature]
    intro h
    cases h
  · rw [if_neg hpossible]
    intro h
    cases h

/-! ## Runs -/

/-- The resident image is genuine: the whole signature record and the image can be read, the stored
size is that of an image, and the signature check says yes to the digest of the signed bytes, the
stored signature and the configured key. -/
def Genuine (check : Check) (key : Vector UInt8 33) (m : Nor n) (question : Question) : Prop :=
  ∃ size signature, m.imageSize = .ok size ∧ PossibleSize size ∧ (pieces m size).2 = none ∧
    m.signature = .ok signature ∧ question = ⟨sha256 (signedBytes m size), signature, key⟩ ∧
    check question.digest question.signature question.key = true

variable {σ ε : Type} [Channel σ ε]

/-- The memory failure that a run ended with, if it was one. -/
def Ending.fault? : Ending ε → Option Fault
  | .reset (.eraseFailed fault) => some fault
  | .reset (.sessionOver (.refused (.storage fault))) => some fault
  | .reset (.imageUnreadable fault) => some fault
  | _ => none

theorem eq_storage_of_fault? {ε : Type} {e : SessionEnd ε} {fault : Fault}
    (h : (Ending.reset (.sessionOver e)).fault? = some fault) : e = .refused (.storage fault) := by
  rcases e with (_ | _ | fault') | e | _
  · cases h
  · cases h
  · cases h
    rfl
  · cases h
  · cases h

/-- Whether a host is heard on a channel. -/
def HostHeard (link : σ) : Prop :=
  (awaitHandshake.run link).1 = .ok true

theorem verify_eq_genuine_iff (check : Check) (key : Vector UInt8 33) (m : Nor n)
    (question : Question) :
    verify sha256 check key m = .ok (.judged question true) ↔ Genuine check key m question := by
  rw [verify_eq_judged_iff]
  constructor
  · rintro ⟨size, signature, hsize, hpossible, hsignature, hquestion, hvalid⟩
    have hn : loaderBase ≤ n := loaderBase_le_of_imageSize hsize
    have hread : (pieces m size).2 = none := by
      rw [pieces_eq_chunks m (Nat.le_trans (by decide) hn) (le_of_possibleSize hn hpossible)]
    exact ⟨size, signature, hsize, hpossible, hread, hsignature, hquestion, hvalid⟩
  · rintro ⟨size, signature, hsize, hpossible, -, hsignature, hquestion, hvalid⟩
    exact ⟨size, signature, hsize, hpossible, hsignature, hquestion, hvalid⟩

/-- Without a host the application is started exactly if the resident image is genuine. -/
theorem verifyAndBoot_jumps_iff (check : Check) (key : Vector UInt8 33) (b : Board n σ)
    (addr : Nat) (question : Question) :
    (verifyAndBoot check key b : Run n σ ε).ending = .jump addr question ↔
      addr = entry ∧ Genuine check key b.flash question := by
  rw [← verify_eq_genuine_iff]
  unfold verifyAndBoot
  rcases verify sha256 check key b.flash with fault | (size | ⟨asked, _ | _⟩)
  case ok.judged.true =>
    constructor
    · intro h
      cases h
      exact ⟨rfl, rfl⟩
    · rintro ⟨rfl, h⟩
      cases h
      rfl
  all_goals
    constructor
    · intro h
      cases h
    · rintro ⟨-, h⟩
      cases h

theorem verifyAndBoot_flash (check : Check) (key : Vector UInt8 33) (b : Board n σ) :
    (verifyAndBoot check key b : Run n σ ε).board.flash = b.flash := by
  unfold verifyAndBoot
  rcases verify sha256 check key b.flash with fault | (size | ⟨asked, _ | _⟩) <;> rfl

theorem resets_iff (ending : Ending ε) :
    (∃ cause, ending = .reset cause) ↔ ∀ addr question, ending ≠ .jump addr question := by
  cases ending with
  | jump addr question =>
    constructor
    · rintro ⟨_, h⟩
      cases h
    · exact fun h => absurd rfl (h addr question)
  | reset cause => exact ⟨fun _ _ _ h => (by cases h), fun _ => ⟨cause, rfl⟩⟩

/-- An update ends in a reset, however far it got. -/
theorem update_resets (b : Board n σ) : ∃ cause, (update b : Run n σ ε).ending = .reset cause := by
  unfold update
  rcases (eraseBelow loaderBase).run b.flash with ⟨fault | ⟨⟩, flash⟩
  · exact ⟨_, rfl⟩
  · simp only
    rcases (Channel.sendAll handshakeResponse).run (Channel.setReceive false b.link)
      with ⟨e | ⟨⟩, link⟩
    · exact ⟨_, rfl⟩
    · exact ⟨_, rfl⟩

/-- A run in which a host is heard is an update; any other checks the resident image. -/
theorem powerOn_cases (check : Check) (key : Vector UInt8 33) (b : Board n σ) :
    (HostHeard b.link ∧ ∃ link, powerOn check key b = update { b with link }) ∨
      (¬ HostHeard b.link ∧ ∃ link, powerOn check key b = verifyAndBoot check key { b with link }) := by
  unfold HostHeard powerOn
  rcases awaitHandshake.run b.link with ⟨e | heard, link⟩
  · exact Or.inr ⟨fun h => (by cases h), link, rfl⟩
  · cases heard with
    | true => exact Or.inl ⟨rfl, link, rfl⟩
    | false => exact Or.inr ⟨fun h => (by cases h), link, rfl⟩

theorem powerOn_flash {b : Board n σ} (h : ¬ HostHeard b.link) (check : Check)
    (key : Vector UInt8 33) : (powerOn check key b).board.flash = b.flash := by
  rcases powerOn_cases check key b with ⟨hheard, -⟩ | ⟨-, link, hrun⟩
  · exact absurd hheard h
  · rw [hrun]
    exact verifyAndBoot_flash check key { b with link }

/-- The application is started, at `entry`, exactly if no host was heard and the resident image is
genuine. Every other run ends in a reset, and without a host nothing is done to the memory. -/
theorem powerOn_jumps_iff (check : Check) (key : Vector UInt8 33) (b : Board n σ) :
    (∀ addr question, (powerOn check key b).ending = .jump addr question ↔
      addr = entry ∧ ¬ HostHeard b.link ∧ Genuine check key b.flash question) ∧
    ((∃ cause, (powerOn check key b).ending = .reset cause) ↔
      HostHeard b.link ∨ ∀ question, ¬ Genuine check key b.flash question) ∧
    (¬ HostHeard b.link → (powerOn check key b).board.flash = b.flash) := by
  have hjumps : ∀ addr question, (powerOn check key b).ending = .jump addr question ↔
      addr = entry ∧ ¬ HostHeard b.link ∧ Genuine check key b.flash question := by
    intro addr question
    rcases powerOn_cases check key b with ⟨hheard, link, hrun⟩ | ⟨hsilent, link, hrun⟩
    · obtain ⟨cause, hcause⟩ := update_resets { b with link }
      rw [hrun, hcause]
      constructor
      · intro h
        cases h
      · rintro ⟨-, hsilent, -⟩
        exact absurd hheard hsilent
    · rw [hrun, verifyAndBoot_jumps_iff]
      exact and_congr_right fun _ => (and_iff_right hsilent).symm
  refine ⟨hjumps, ?_, fun hsilent => powerOn_flash hsilent check key⟩
  · rw [resets_iff]
    constructor
    · intro hnever
      by_cases hheard : HostHeard b.link
      · exact Or.inl hheard
      · exact Or.inr fun question hgenuine =>
          hnever entry question ((hjumps entry question).2 ⟨rfl, hheard, hgenuine⟩)
    · rintro hcase addr question hjump
      obtain ⟨-, hsilent, hgenuine⟩ := (hjumps addr question).1 hjump
      rcases hcase with hheard | hnone
      · exact hsilent hheard
      · exact hnone question hgenuine

end SignedBoot.Device

import Mathlib.Data.List.Basic
import Mathlib.Tactic.Common
import SignedBoot.Flash.Blocks

/-!
# Lists of commands and power cuts

Whatever is done to a memory in bounds is a fixed list of commands, each of which changes the cells
in its own way. A power cut after some number of them leaves the cells as a front part of the list
would, and that is the only thing a cut can do. So a question about every cut point becomes a
question about every front part of a list.
-/

namespace SignedBoot

namespace Quota

/-- Whether a quota allows an amount. -/
def Covers (q : Quota) (amount : Nat) : Prop :=
  ∀ left ∈ q, amount ≤ left

instance (q : Quota) (amount : Nat) : Decidable (q.Covers amount) :=
  inferInstanceAs (Decidable (∀ left ∈ q, amount ≤ left))

/-- Without a limit every amount is allowed. -/
theorem covers_none (amount : Nat) : Quota.Covers none amount := by
  intro left h
  cases h

theorem covers_some {left amount : Nat} : Quota.Covers (some left) amount ↔ amount ≤ left := by
  constructor
  · exact fun h => h left rfl
  · rintro h _ ⟨⟩
    exact h

theorem use_zero (q : Quota) : q.use 0 = q := by
  cases q <;> rfl

theorem use_of_spend?_eq_some {q q' : Quota} (h : q.spend? = some q') (amount : Nat) :
    q'.use amount = q.use (amount + 1) := by
  match q with
  | none =>
    cases h
    rfl
  | some 0 => cases h
  | some (left + 1) =>
    cases h
    simp only [use, Option.map_some, Nat.add_sub_add_right]

/-- What a quota covers altogether, it covers in parts. -/
theorem covers_add {q : Quota} {first second : Nat} :
    q.Covers (first + second) ↔ q.Covers first ∧ (q.use first).Covers second := by
  cases q with
  | none => simp [covers_none, use]
  | some left =>
    simp only [covers_some, use, Option.map_some]
    omega

theorem take_of_covers {α : Type} {q : Quota} {items : List α} (h : q.Covers items.length) :
    q.take items = items := by
  cases q with
  | none => rfl
  | some left => exact List.take_of_length_le (covers_some.1 h)

end Quota

namespace Flash

open Layout

variable {n : Nat}

/-! ## Changes of the cells -/

/-- What one command does to the cells. -/
abbrev Change (n : Nat) := Vector UInt8 n → Vector UInt8 n

/-- Applies changes one after the other. -/
def applyAll (changes : List (Change n)) (cells : Vector UInt8 n) : Vector UInt8 n :=
  changes.foldl (fun cells change => change cells) cells

@[simp]
theorem applyAll_nil (cells : Vector UInt8 n) : applyAll [] cells = cells := rfl

@[simp]
theorem applyAll_cons (change : Change n) (changes : List (Change n)) (cells : Vector UInt8 n) :
    applyAll (change :: changes) cells = applyAll changes (change cells) := rfl

theorem applyAll_append (xs ys : List (Change n)) (cells : Vector UInt8 n) :
    applyAll (xs ++ ys) cells = applyAll ys (applyAll xs cells) :=
  List.foldl_append

/-- What every change preserves, all of them together preserve. -/
theorem applyAll_preserves {P : Vector UInt8 n → Prop} {changes : List (Change n)}
    (h : ∀ change ∈ changes, ∀ cells, P cells → P (change cells)) {cells : Vector UInt8 n}
    (hc : P cells) : P (applyAll changes cells) := by
  induction changes generalizing cells with
  | nil => exact hc
  | cons change changes ih =>
    have hhead := h change List.mem_cons_self cells hc
    exact ih (fun c hm => h c (List.mem_cons_of_mem _ hm)) hhead

theorem getElem_applyAll {changes : List (Change n)} {i : Nat} (hi : i < n)
    (h : ∀ change ∈ changes, ∀ cells : Vector UInt8 n, (change cells)[i] = cells[i])
    (cells : Vector UInt8 n) : (applyAll changes cells)[i] = cells[i] :=
  applyAll_preserves (P := fun cells' => cells'[i] = cells[i])
    (fun change hm c hc => (h change hm c).trans hc) rfl

/-! ## Carrying out a list of commands -/

/-- The memory after paying for and applying changes. -/
def Nor.after (m : Nor n) (changes : List (Change n)) : Nor n where
  cells := applyAll changes m.cells
  operations := m.operations + changes.length
  power := m.power.use changes.length

@[simp]
theorem Nor.after_nil (m : Nor n) : m.after [] = m := by
  obtain ⟨cells, operations, power⟩ := m
  cases power <;> rfl

/-- Changes are paid for one after the other. -/
theorem Nor.after_append (m : Nor n) (xs ys : List (Change n)) :
    m.after (xs ++ ys) = (m.after xs).after ys := by
  obtain ⟨cells, operations, power⟩ := m
  simp only [Nor.after, applyAll_append, List.length_append, Nat.add_assoc]
  cases power with
  | none => rfl
  | some left => simp only [Quota.use, Option.map_some, Nat.sub_sub]

/-- One command per change. -/
def commands (changes : List (Change n)) : Action n Unit :=
  changes.forM command

theorem commands_nil : (commands [] : Action n Unit) = pure () := rfl

theorem commands_cons (change : Change n) (changes : List (Change n)) :
    commands (change :: changes) = command change >>= fun _ => commands changes := rfl

theorem commands_append (xs ys : List (Change n)) :
    commands (xs ++ ys) = commands xs >>= fun _ => commands ys :=
  List.forM_append

/-- A single command fails exactly if no power is left, and then it does nothing. -/
theorem run_command (change : Change n) (m : Nor n) :
    (command change).run m =
      if m.power = some 0 then (.error .powerLoss, m) else (.ok (), m.after [change]) := by
  obtain ⟨cells, operations, power⟩ := m
  match power with
  | none => rfl
  | some 0 => rfl
  | some (left + 1) => simp [command, Nor.pay?, Quota.spend?, Nor.after, Quota.use]

/-- A list of commands is carried out as far as the power lasts. -/
theorem run_commands (changes : List (Change n)) (m : Nor n) :
    (commands changes).run m =
      (if m.power.Covers changes.length then .ok () else .error .powerLoss,
        m.after (m.power.take changes)) := by
  induction changes generalizing m with
  | nil =>
    obtain ⟨cells, operations, power⟩ := m
    cases power <;> simp [commands_nil, Quota.take, Quota.covers_none, Quota.covers_some]
  | cons change changes ih =>
    obtain ⟨cells, operations, power⟩ := m
    rw [commands_cons, Attempt.run_bind, run_command]
    match power with
    | none =>
      simp [ih, Quota.take, Quota.covers_none, Nor.after, Quota.use, Nat.add_assoc, Nat.add_comm]
    | some 0 => simp [Quota.take, Quota.covers_some]
    | some (left + 1) =>
      have hcovers : 1 + changes.length ≤ left + 1 ↔ changes.length ≤ left := by omega
      simp [ih, Quota.take, Quota.covers_some, Nor.after, Quota.use, Nat.add_assoc, Nat.add_comm,
        hcovers]
      omega

end Flash

end SignedBoot

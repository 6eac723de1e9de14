/-!
# Quotas

How much may still be used of something that may be limited: operations before the power is cut,
bytes that a transmitter has room for, flushes that succeed.
-/

namespace SignedBoot

/-- How much may still be used; without a number there is no limit. -/
abbrev Quota := Option Nat

namespace Quota

/-- As much of a list as a quota allows. -/
def take {α : Type} (q : Quota) (items : List α) : List α :=
  match q with
  | none => items
  | some left => items.take left

/-- What is left after using an amount that the quota allows. -/
def use (q : Quota) (amount : Nat) : Quota :=
  q.map fun left => left - amount

/-- What is left after using one, unless nothing was left before. -/
def spend? : Quota → Option Quota
  | none => some none
  | some 0 => none
  | some (left + 1) => some (some left)

/-- What a quota allows is a front part of what was asked for. -/
theorem take_prefix {α : Type} (q : Quota) (items : List α) : q.take items <+: items := by
  cases q with
  | none => exact List.prefix_rfl
  | some left => exact List.take_prefix left items

theorem spend?_eq_some_some_iff {q : Quota} {left : Nat} :
    q.spend? = some (some left) ↔ q = some (left + 1) := by
  match q with
  | none => simp [spend?]
  | some 0 => simp [spend?]
  | some (left' + 1) => simp [spend?]

end Quota

end SignedBoot

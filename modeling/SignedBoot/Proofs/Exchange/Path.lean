import Mathlib.Data.List.Basic
import Mathlib.Tactic.Common

/-!
# Paths

The ways in which a state can be reached from another by labelled steps. A path keeps its labels in
the order in which the steps were taken, so that what happened on the way can be counted. Paths grow
at their end: an induction over a path is an induction over time.
-/

namespace SignedBoot

variable {σ α : Type} {step : σ → α → σ → Prop}

/-- From one state to another by steps with the given labels. -/
inductive Path (step : σ → α → σ → Prop) (start : σ) : List α → σ → Prop where
  | nil : Path step start [] start
  | snoc {labels : List α} {s t : σ} {label : α} :
    Path step start labels s → step s label t → Path step start (labels ++ [label]) t

namespace Path

theorem single {s t : σ} {label : α} (h : step s label t) : Path step s [label] t :=
  snoc nil h

theorem append {r s t : σ} {first second : List α} (hfirst : Path step r first s)
    (hsecond : Path step s second t) : Path step r (first ++ second) t := by
  induction hsecond with
  | nil =>
    rw [List.append_nil]
    exact hfirst
  | snoc _ hstep ih =>
    rw [← List.append_assoc]
    exact snoc ih hstep

theorem cons {r s t : σ} {label : α} {labels : List α} (hstep : step r label s)
    (hrest : Path step s labels t) : Path step r (label :: labels) t :=
  append (single hstep) hrest

/-- What holds at the start and is preserved by every step, given what happened before it, holds
along the whole path. -/
theorem invariant {I : List α → σ → Prop} {start : σ} (hstart : I [] start)
    (hstep : ∀ labels s label t, I labels s → step s label t → I (labels ++ [label]) t)
    {labels : List α} {s : σ} (h : Path step start labels s) : I labels s := by
  induction h with
  | nil => exact hstart
  | snoc _ hlast ih => exact hstep _ _ _ _ ih hlast

end Path

/-- A label of which a trace keeps nothing leaves the trace as it was. -/
theorem trace_quiet {β : Type} {trace : List α → List β} {labels : List α} {label : α}
    (hconcat : trace (labels ++ [label]) = trace labels ++ trace [label])
    (hnone : trace [label] = []) : trace (labels ++ [label]) = trace labels := by
  rw [hconcat, hnone, List.append_nil]

end SignedBoot

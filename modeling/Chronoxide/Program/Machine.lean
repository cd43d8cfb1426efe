import Mathlib.Tactic.Common

/-! Machines that take one operation after the other and answer each of them. What an invariant says
may depend on the history: the operations so far, each with its answer. -/

namespace Machine

variable {σ ι ο : Type}

def run (step : σ → ι → ο × σ) (s : σ) (ops : List ι) : σ := ops.foldl (fun s op => (step s op).2) s

def events (step : σ → ι → ο × σ) : σ → List ι → List (ι × ο)
  | _, [] => []
  | s, op :: ops => (op, (step s op).1) :: events step (step s op).2 ops

variable {step : σ → ι → ο × σ} {s : σ}

theorem run_append (xs ys : List ι) : run step s (xs ++ ys) = run step (run step s xs) ys :=
  List.foldl_append

theorem events_append (xs ys : List ι) :
    events step s (xs ++ ys) = events step s xs ++ events step (run step s xs) ys := by
  induction xs generalizing s with
  | nil => rfl
  | cons x xs ih =>
    rw [List.cons_append, events, ih, events, List.cons_append]
    rfl

theorem invariant {I : List (ι × ο) → σ → Prop} {past : List (ι × ο)} (hstart : I past s)
    (hstep : ∀ past s op, I past s → I (past ++ [(op, (step s op).1)]) (step s op).2)
    (ops : List ι) : I (past ++ events step s ops) (run step s ops) := by
  induction ops generalizing s past with
  | nil => rwa [events, List.append_nil]
  | cons op ops ih =>
    rw [events, List.append_cons]
    exact ih (hstep past s op hstart)

theorem stable {P : σ → Prop} (hstart : P s) (hstep : ∀ s op, P s → P (step s op).2)
    (ops : List ι) : P (run step s ops) := by
  induction ops generalizing s with
  | nil => exact hstart
  | cons op ops ih => exact ih (hstep s op hstart)

theorem run_rel {R : σ → σ → Prop} (hrefl : ∀ s, R s s) (htrans : ∀ {a b c}, R a b → R b c → R a c)
    (hstep : ∀ s op, R s (step s op).2) (ops : List ι) : R s (run step s ops) := by
  induction ops generalizing s with
  | nil => exact hrefl s
  | cons op ops ih => exact htrans (hstep s op) ih

end Machine

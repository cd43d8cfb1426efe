import Mathlib.Data.List.Basic
import Mathlib.Tactic.Common

/-! Optional columns beside a table of rows. A column is there when it is as long as the table, and
one that is not there stands for its filler in every row. -/

namespace Sidecar
open List

variable {α ρ : Type}

def has (n : Nat) (v : List α) : Bool := !v.isEmpty && v.length = n

def ensure (fill : α) (n : Nat) (v : List α) : List α := if has n v then v else replicate n fill

def pushIfPresent (x : α) (n : Nat) (v : List α) : List α := if has n v then v ++ [x] else []

def extend (fill fillOther : α) (n m : Nat) (v other : List α) : List α :=
  if has m other then ensure fill n v ++ other
  else if has n v then v ++ replicate m fillOther
  else []

def column (present : Bool) (field : ρ → α) (rows : List ρ) : List α :=
  if present then rows.map field else []

variable {present other : Bool} {field : ρ → α} {rows rows' : List ρ} {fill fillOther : α}

theorem has_column (h : rows = [] → present = false) :
    has rows.length (column present field rows) = present := by
  unfold has column
  cases present with
  | false => rfl
  | true =>
    have hne : rows ≠ [] := fun hnil => Bool.false_ne_true (h hnil).symm
    simp [hne]

theorem column_concat (field : ρ → α) (rows : List ρ) (row : ρ) :
    column true field (rows ++ [row]) = rows.map field ++ [field row] := map_append

theorem map_eq_replicate (hfill : ∀ row ∈ rows, field row = fill) :
    rows.map field = replicate rows.length fill := by
  refine eq_replicate_iff.mpr ⟨length_map .., ?_⟩
  exact forall_mem_map.mpr hfill

theorem ensure_column (h : rows = [] → present = false)
    (hfill : present = false → ∀ row ∈ rows, field row = fill) :
    ensure fill rows.length (column present field rows) = rows.map field := by
  unfold ensure
  rw [has_column h]
  cases present with
  | true => rfl
  | false => exact (map_eq_replicate (hfill rfl)).symm

theorem pushIfPresent_column (h : rows = [] → present = false) {row : ρ} {x : α}
    (hx : field row = x) :
    pushIfPresent x rows.length (column present field rows) =
      column present field (rows ++ [row]) := by
  unfold pushIfPresent
  rw [has_column h]
  cases present with
  | false => rfl
  | true =>
    rw [← hx, column_concat]
    rfl

theorem extend_column (h : rows = [] → present = false) (hother : rows' = [] → other = false)
    (hfill : present = false → ∀ row ∈ rows, field row = fill)
    (hfillOther : other = false → ∀ row ∈ rows', field row = fillOther) :
    extend fill fillOther rows.length rows'.length (column present field rows)
        (column other field rows') =
      column (present || other) field (rows ++ rows') := by
  unfold extend
  rw [has_column h, has_column hother]
  cases other with
  | true =>
    rw [ensure_column h hfill, Bool.or_true]
    exact map_append.symm
  | false =>
    rw [Bool.or_false, ← map_eq_replicate (hfillOther rfl)]
    cases present with
    | false => rfl
    | true => exact map_append.symm

theorem getD_column {i : Nat} {row : ρ} (hrow : rows[i]? = some row)
    (hfill : present = false → field row = fill) :
    (column present field rows).getD i fill = field row := by
  unfold column
  cases present with
  | true => simp [hrow]
  | false => exact (hfill rfl).symm

theorem length_column (present : Bool) (field : ρ → α) (rows : List ρ) :
    column present field rows = [] ∨ (column present field rows).length = rows.length := by
  cases present with
  | false => exact .inl rfl
  | true => exact .inr (length_map ..)

end Sidecar

import Mathlib.Data.List.Basic
import Mathlib.Tactic.Common

/-! Readers of a symbol list from its front. A reader is exact for an encoding when it accepts
precisely the encodings of the values it may return. -/

namespace Codec
open List

abbrev Machine (ε σ α : Type) := StateT σ (Except ε) α

/-- A reader consumes symbols from the front of a list, or stops with an error. -/
abbrev Parser (ε β α : Type) := Machine ε (List β) α

namespace Parser

variable {ε σ β α γ : Type}

def ensure (c : Prop) [Decidable c] (e : ε) : Machine ε σ Unit :=
  fun s => if c then .ok ((), s) else .error e

def fail (e : ε) : Machine ε σ α := fun _ => .error e

def lift (x : Except ε α) : Machine ε σ α := fun s => x.map (·, s)

def ofOption (x : Option α) (e : ε) : Machine ε σ α := lift (x.elim (.error e) .ok)

def remaining : Parser ε β Nat := fun bs => .ok (bs.length, bs)

def atEnd (e : ε) : Parser ε β Unit := fun bs => if bs = [] then .ok ((), bs) else .error e

def takeN (n : Nat) (e : ε) : Parser ε β (List β) :=
  fun bs => if bs.length < n then .error e else .ok (bs.take n, bs.drop n)

def next (e : ε) : Parser ε β β
  | [] => .error e
  | b :: bs => .ok (b, bs)

def times (p : Parser ε β α) : Nat → Parser ε β (List α)
  | 0 => pure []
  | n + 1 => do
    let a ← p
    let as ← times p n
    return a :: as

def whole (f : List β → Except ε α) : Parser ε β α := fun bs => (f bs).map (·, [])

def value (p : Parser ε β α) (bs : List β) : Except ε α := (p bs).map Prod.fst

section Run
variable {p : Machine ε σ α} {f : α → Machine ε σ γ} {s t : σ} {e : ε}

@[simp] theorem bind_ok {c : γ} :
    (p >>= f) s = .ok (c, t) ↔ ∃ a mid, p s = .ok (a, mid) ∧ f a mid = .ok (c, t) := by
  change (p s >>= fun r => f r.1 r.2) = _ ↔ _
  rcases p s with err | ⟨a, mid⟩
  · simp [bind, Except.bind]
  constructor
  · exact fun h => ⟨a, mid, rfl, h⟩
  · rintro ⟨a', mid', h, h'⟩
    obtain ⟨rfl, rfl⟩ := h
    exact h'

@[simp] theorem pure_ok {a b : α} : (pure a : Machine ε σ α) s = .ok (b, t) ↔ a = b ∧ s = t := by
  change Except.ok (a, s) = _ ↔ _
  simp

@[simp] theorem map_ok {g : α → γ} {c : γ} :
    (g <$> p) s = .ok (c, t) ↔ ∃ a, p s = .ok (a, t) ∧ g a = c := by
  change (p s >>= fun r => pure (g r.1, r.2)) = _ ↔ _
  rcases p s with err | ⟨a, mid⟩
  · simp [bind, Except.bind]
  · simp [bind, Except.bind, pure, Except.pure, and_comm]

@[simp] theorem ensure_ok {c : Prop} [Decidable c] {u : Unit} :
    ensure c e s = .ok (u, t) ↔ c ∧ s = t := by
  unfold ensure
  split <;> simp_all

theorem exists_ensure {c : Prop} {P : Unit → σ → Prop} :
    (∃ u mid, (c ∧ s = mid) ∧ P u mid) ↔ c ∧ P () s := by
  constructor
  · rintro ⟨u, mid, ⟨hc, rfl⟩, h⟩
    exact ⟨hc, h⟩
  · rintro ⟨hc, h⟩
    exact ⟨(), s, ⟨hc, rfl⟩, h⟩

@[simp] theorem fail_ok {a : α} : (fail e : Machine ε σ α) s = .ok (a, t) ↔ False := by
  simp [fail]

@[simp] theorem lift_ok {x : Except ε α} {a : α} :
    (lift x : Machine ε σ α) s = .ok (a, t) ↔ x = .ok a ∧ s = t := by
  cases x <;> simp [lift, Except.map]

@[simp] theorem ofOption_ok {x : Option α} {a : α} :
    (ofOption x e : Machine ε σ α) s = .ok (a, t) ↔ x = some a ∧ s = t := by
  cases x <;> simp [ofOption]

end Run

section Symbols
variable {p : Parser ε β α} {bs rest : List β} {e : ε}

@[simp] theorem remaining_ok {n : Nat} :
    (remaining : Parser ε β Nat) bs = .ok (n, rest) ↔ bs.length = n ∧ bs = rest := by
  simp [remaining]

@[simp] theorem atEnd_ok {u : Unit} : atEnd e bs = .ok (u, rest) ↔ bs = [] ∧ rest = [] := by
  unfold atEnd
  split <;> simp_all [eq_comm]

@[simp] theorem takeN_ok {n : Nat} {xs : List β} :
    takeN n e bs = .ok (xs, rest) ↔ xs.length = n ∧ bs = xs ++ rest := by
  unfold takeN
  split
  · rename_i h
    constructor
    · simp
    · rintro ⟨rfl, rfl⟩
      exact absurd h (by simp)
  rename_i h
  constructor
  · intro hx
    obtain ⟨rfl, rfl⟩ := hx
    exact ⟨by rw [length_take]; omega, (take_append_drop n bs).symm⟩
  · rintro ⟨rfl, rfl⟩
    simp

@[simp] theorem next_ok {b : β} : next e bs = .ok (b, rest) ↔ bs = b :: rest := by
  cases bs <;> simp [next]

theorem next_cons_bind {f : β → Machine ε (List β) α} {b : β} :
    (next e >>= f) (b :: bs) = f b bs := rfl

@[simp] theorem whole_ok {f : List β → Except ε α} {a : α} :
    whole f bs = .ok (a, rest) ↔ f bs = .ok a ∧ rest = [] := by
  unfold whole
  cases f bs <;> simp [Except.map, eq_comm]

theorem value_ok {a : α} : p.value bs = .ok a ↔ ∃ rest, p bs = .ok (a, rest) := by
  unfold value
  rcases p bs with err | ⟨a', mid⟩
  · simp [Except.map]
  · simp [Except.map]

end Symbols

/-- The reader accepts exactly the encodings of the values in `P`, whatever follows them. -/
def Codes (p : Parser ε β α) (P : α → Prop) (enc : α → List β) : Prop :=
  ∀ bs a rest, p bs = .ok (a, rest) ↔ P a ∧ bs = enc a ++ rest

theorem Codes.times {p : Parser ε β α} {P : α → Prop} {enc : α → List β} (h : Codes p P enc)
    (n : Nat) :
    Codes (p.times n) (fun as => as.length = n ∧ ∀ a ∈ as, P a) (fun as => as.flatMap enc) := by
  induction n with
  | zero =>
    intro bs as rest
    simp only [Parser.times, pure_ok, length_eq_zero_iff]
    constructor
    · rintro ⟨rfl, rfl⟩
      simp
    · rintro ⟨⟨rfl, _⟩, rfl⟩
      simp
  | succ n ih =>
    intro bs as rest
    simp only [Parser.times, bind_ok, pure_ok, h _ _ _, ih _ _ _]
    constructor
    · rintro ⟨a, mid, ⟨ha, rfl⟩, as', mid', ⟨⟨rfl, has⟩, rfl⟩, rfl, rfl⟩
      refine ⟨⟨rfl, ?_⟩, by simp⟩
      simpa using ⟨ha, has⟩
    rintro ⟨⟨hn, has⟩, rfl⟩
    cases as with
    | nil => simp at hn
    | cons a as =>
      simp only [mem_cons, forall_eq_or_imp, length_cons, Nat.add_right_cancel_iff]
        at has hn
      exact ⟨a, _, ⟨has.1, append_assoc ..⟩, as, _, ⟨⟨hn, has.2⟩, rfl⟩, rfl, rfl⟩

/-- `q` reads the same symbols as `p` and returns the image of what `p` returns. -/
def Projects (q : Parser ε β γ) (p : Parser ε β α) (f : α → γ) : Prop :=
  ∀ bs c rest, q bs = .ok (c, rest) ↔ ∃ a, p bs = .ok (a, rest) ∧ f a = c

end Parser

def require {ε : Type} (c : Prop) [Decidable c] (e : ε) : Except ε Unit :=
  if c then .ok () else .error e

@[simp] theorem require_ok {ε : Type} {c : Prop} [Decidable c] {e : ε} {u : Unit} :
    require c e = .ok u ↔ c := by
  unfold require
  split <;> simp_all

theorem require_pos {ε : Type} {c : Prop} [Decidable c] {e : ε} (h : c) : require c e = .ok () :=
  if_pos h

theorem exists_of_isOk {ε α : Type} {x : Except ε α} (h : x.isOk = true) : ∃ a, x = .ok a := by
  cases x with
  | ok a => exact ⟨a, rfl⟩
  | error e => cases h

theorem except_bind_ok {ε α γ : Type} {x : Except ε α} {f : α → Except ε γ} {c : γ} :
    (x >>= f) = .ok c ↔ ∃ a, x = .ok a ∧ f a = .ok c := by
  cases x <;> simp [bind, Except.bind]

theorem require_bind_ok {ε γ : Type} {c : Prop} [Decidable c] {e : ε} {f : Unit → Except ε γ}
    {r : γ} : (require c e >>= f) = .ok r ↔ c ∧ f () = .ok r := by
  by_cases h : c <;> simp [require, h, bind, Except.bind]

theorem except_pure_ok {ε α : Type} {a b : α} : (pure a : Except ε α) = .ok b ↔ a = b := by
  simp [pure, Except.pure]

theorem except_mapM_ok {ε α γ : Type} {f : α → Except ε γ} {g : α → γ} {xs : List α}
    (h : ∀ x ∈ xs, f x = .ok (g x)) : xs.mapM f = .ok (xs.map g) := by
  induction xs with
  | nil => rfl
  | cons x xs ih =>
    obtain ⟨hx, hxs⟩ := forall_mem_cons.mp h
    rw [mapM_cons, hx, ih hxs]
    rfl

end Codec

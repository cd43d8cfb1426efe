import Chronoxide.Codec.Parser

/-! Computations that give a known value, or one with a known property, unless one of some known
faults stops them. -/

namespace Faults
open Codec List

variable {ε α β : Type} {F F' : ε → Prop} {x : Except ε α} {f : α → Except ε β} {a : α} {b : β}

/-- The value, or an error among the faults. -/
def Yields (F : ε → Prop) (x : Except ε α) (a : α) : Prop := x = .ok a ∨ ∃ e, F e ∧ x = .error e

theorem yields_ok : Yields F (.ok a : Except ε α) a := .inl rfl

theorem yields_error {e : ε} (h : F e) : Yields F (.error e) a := .inr ⟨e, h, rfl⟩

theorem yields_require {c : Prop} [Decidable c] {e : ε} (h : c) : Yields F (require c e) () :=
  .inl (require_pos h)

theorem Yields.bind (h : Yields F x a) (hf : Yields F (f a) b) : Yields F (x >>= f) b := by
  rcases h with rfl | ⟨e, he, rfl⟩
  · exact hf
  · exact .inr ⟨e, he, rfl⟩

theorem Yields.mono (h : Yields F x a) (hmono : ∀ e, F e → F' e) : Yields F' x a :=
  h.imp_right fun ⟨e, he, heq⟩ => ⟨e, hmono e he, heq⟩

theorem yields_foldlM {σ : Type} {step : σ → α → Except ε σ} {next : σ → α → σ} {l : List α}
    (hstep : ∀ s, ∀ a ∈ l, Yields F (step s a) (next s a)) (s : σ) :
    Yields F (l.foldlM step s) (l.foldl next s) := by
  induction l generalizing s with
  | nil => exact yields_ok
  | cons a l ih =>
    exact (hstep s a mem_cons_self).bind
      (ih (fun s b hb => hstep s b (mem_cons_of_mem _ hb)) _)

theorem forM_ok_iff {g : α → Except ε Unit} {l : List α} :
    l.forM g = .ok () ↔ ∀ a ∈ l, g a = .ok () := by
  induction l with
  | nil => exact iff_of_true rfl (forall_mem_nil _)
  | cons a l ih =>
    rw [forall_mem_cons, ← ih]
    change (g a >>= fun _ => l.forM g) = _ ↔ _
    rw [except_bind_ok]
    exact ⟨fun ⟨_, ha, hl⟩ => ⟨ha, hl⟩, fun ⟨ha, hl⟩ => ⟨_, ha, hl⟩⟩

/-- A value with the property, or an error among the faults. -/
def Gives (F : ε → Prop) (P : α → Prop) : Except ε α → Prop
  | .ok a => P a
  | .error e => F e

variable {P Q : α → Prop} {R : β → Prop}

theorem Gives.bind (h : Gives F P x) (hf : ∀ a, P a → Gives F R (f a)) : Gives F R (x >>= f) := by
  cases x with
  | ok a => exact hf a h
  | error e => exact h

theorem Gives.mono (h : Gives F P x) (hpost : ∀ a, P a → Q a) (hfaults : ∀ e, F e → F' e) :
    Gives F' Q x := by
  cases x with
  | ok a => exact hpost a h
  | error e => exact hfaults e h

theorem Gives.post (h : Gives F P x) (hpost : ∀ a, P a → Q a) : Gives F Q x :=
  h.mono hpost fun _ he => he

theorem gives_require {c : Prop} [Decidable c] {e : ε} (h : ¬c → F e) :
    Gives F (fun _ => c) (require c e) := by
  unfold require
  split
  · assumption
  · exact h ‹_›

theorem gives_foldlM {σ : Type} {step : σ → α → Except ε σ} {I : List α → σ → Prop} {l : List α}
    {s : σ} (hstep : ∀ a ∈ l, ∀ done s, I done s → Gives F (I (done ++ [a])) (step s a))
    (h : I [] s) : Gives F (I l) (l.foldlM step s) := by
  have hloop : ∀ rest done s, (∀ a ∈ rest, a ∈ l) → I done s →
      Gives F (I (done ++ rest)) (rest.foldlM step s) := by
    intro rest
    induction rest with
    | nil =>
      intro done s _ hs
      rw [append_nil]
      exact hs
    | cons a rest ih =>
      intro done s hmem hs
      obtain ⟨ha, hrest⟩ := forall_mem_cons.mp hmem
      rw [foldlM_cons, append_cons]
      exact (hstep a ha done s hs).bind fun next hnext => ih _ next hrest hnext
  exact hloop l [] s (fun _ ha => ha) h

theorem Yields.gives (h : Yields F x a) (ha : P a) : Gives F P x := by
  rcases h with rfl | ⟨e, he, rfl⟩
  · exact ha
  · exact he

end Faults

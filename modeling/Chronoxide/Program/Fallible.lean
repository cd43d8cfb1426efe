import Mathlib.Data.List.Basic
import Mathlib.Tactic.Common

/-! Programs that change a state and may stop with an error, which keeps the changes made so far.
Their rules of pre- and postconditions: a postcondition has a part for either outcome. -/

namespace Fallible
open List

abbrev Program (σ ε α : Type) := ExceptT ε (StateM σ) α

variable {σ ε α β : Type}

def Program.exec (m : Program σ ε α) (s : σ) : Except ε α × σ := m.run.run s

def zoom {τ : Type} (part : σ → τ) (put : τ → σ → σ) (m : Program τ ε α) : Program σ ε α :=
  ExceptT.mk (fun s => ((m.exec (part s)).1, put (m.exec (part s)).2 s))

def Program.lift (x : Except ε α) : Program σ ε α := ExceptT.mk fun s => (x, s)

def Post (Q : α → σ → Prop) (E : ε → σ → Prop) : Except ε α × σ → Prop
  | (.ok a, s) => Q a s
  | (.error e, s) => E e s

def Triple (P : σ → Prop) (m : Program σ ε α) (Q : α → σ → Prop) (E : ε → σ → Prop) : Prop :=
  ∀ s, P s → Post Q E (m.exec s)

variable {f : α → Program σ ε β}

namespace Program

theorem exec_get (s : σ) : (get : Program σ ε σ).exec s = (.ok s, s) := rfl

theorem exec_bind_ok {m : Program σ ε α} {s s' : σ} {a : α}
    (h : m.exec s = (.ok a, s')) : (m >>= f).exec s = (f a).exec s' := by
  change StateT.bind m.run (ExceptT.bindCont f) s = _
  change m.run s = _ at h
  rw [StateT.bind, h]
  rfl

theorem exec_bind_error {m : Program σ ε α} {s s' : σ} {e : ε}
    (h : m.exec s = (.error e, s')) : (m >>= f).exec s = (.error e, s') := by
  change StateT.bind m.run (ExceptT.bindCont f) s = _
  change m.run s = _ at h
  rw [StateT.bind, h]
  rfl

end Program

namespace Triple

variable {P P' : σ → Prop} {m : Program σ ε α} {Q Q' : α → σ → Prop} {E E' : ε → σ → Prop}

theorem ret (a : α) : Triple (Q a) (pure a : Program σ ε α) Q E := fun _ h => h

theorem of_ok (h : Triple P m Q E) {s : σ} {a : α} (hs : P s) (hok : (m.exec s).1 = .ok a) :
    Q a (m.exec s).2 := by
  have hm := h s hs
  revert hm hok
  rcases m.exec s with ⟨e | a', s'⟩
  · intro hok
    cases hok
  · intro hok hm
    cases hok
    exact hm

theorem conseq (h : Triple P m Q E) (hpre : ∀ s, P' s → P s) (hpost : ∀ a s, Q a s → Q' a s)
    (herror : ∀ e s, E e s → E' e s) : Triple P' m Q' E' := by
  intro s hs
  have hm := h s (hpre s hs)
  revert hm
  rcases m.exec s with ⟨e | a, s'⟩
  · exact herror e s'
  · exact hpost a s'

theorem pre (h : Triple P m Q E) (hpre : ∀ s, P' s → P s) : Triple P' m Q E :=
  fun s hs => h s (hpre s hs)

theorem mono_error (h : Triple P m Q E) (herror : ∀ e s, E e s → E' e s) : Triple P m Q E' :=
  h.conseq (fun _ hs => hs) (fun _ _ hs => hs) herror

theorem seq {R : β → σ → Prop} (hm : Triple P m Q E)
    (hf : ∀ a, Triple (Q a) (f a) R E) : Triple P (m >>= f) R E := by
  intro s hs
  have hm := hm s hs
  revert hm
  rcases hexec : m.exec s with ⟨e | a, s'⟩
  · intro hm
    rw [Program.exec_bind_error hexec]
    exact hm
  · intro hm
    rw [Program.exec_bind_ok hexec]
    exact hf a s' hm

theorem given {p : Prop} (h : p → Triple P m Q E) : Triple (fun s => p ∧ P s) m Q E :=
  fun s hs => h hs.1 s hs.2

theorem lift (x : Except ε α) : Triple P (Program.lift x) (fun a s => x = .ok a ∧ P s)
    (fun e s => x = .error e ∧ P s) := by
  intro s hs
  cases x with
  | ok a => exact ⟨rfl, hs⟩
  | error e => exact ⟨rfl, hs⟩

theorem read {f : σ → Program σ ε α} (h : ∀ s, P s → Triple (· = s) (f s) Q E) :
    Triple P (get >>= f) Q E := by
  intro s hs
  exact h s hs s rfl

theorem ite {c : Prop} [Decidable c] {m' : Program σ ε α} (h : c → Triple P m Q E)
    (h' : ¬c → Triple P m' Q E) : Triple P (if c then m else m') Q E := by
  split
  · exact h ‹_›
  · exact h' ‹_›

theorem zoom {τ : Type} {part : σ → τ} {put : τ → σ → σ} {m : Program τ ε α}
    (h : ∀ s, P s → Triple (· = part s) m (fun a t => Q a (put t s)) (fun e t => E e (put t s))) :
    Triple P (Fallible.zoom part put m) Q E := by
  intro s hs
  have hm := h s hs (part s) rfl
  change Post Q E ((m.exec (part s)).1, put (m.exec (part s)).2 s)
  revert hm
  rcases m.exec (part s) with ⟨e | a, t⟩ <;> exact id

theorem mapM {xs : List β} {f : β → Program σ ε α} {I : List β → List α → σ → Prop}
    (hstep : ∀ x ∈ xs, ∀ ys as, Triple (I ys as) (f x) (fun a => I (ys ++ [x]) (as ++ [a])) E) :
    ∀ ys as, Triple (I ys as) (xs.mapM f) (fun bs => I (ys ++ xs) (as ++ bs)) E := by
  induction xs with
  | nil =>
    intro ys as
    refine (ret []).pre fun s hs => ?_
    rwa [append_nil, append_nil]
  | cons x xs ih =>
    intro ys as
    rw [mapM_cons]
    refine seq (hstep x (mem_cons_self ..) ys as) fun a => ?_
    refine seq (ih (fun y hy => hstep y (mem_cons_of_mem _ hy)) _ _) fun bs => ?_
    refine (ret (a :: bs)).pre fun s hs => ?_
    rwa [append_assoc, append_assoc] at hs

theorem foldlM {xs : List β} {f : α → β → Program σ ε α} {I : List β → α → σ → Prop}
    (hstep : ∀ x ∈ xs, ∀ ys a, Triple (I ys a) (f a x) (fun a' => I (ys ++ [x]) a') E) :
    ∀ ys a, Triple (I ys a) (xs.foldlM f a) (fun a' => I (ys ++ xs) a') E := by
  induction xs with
  | nil =>
    intro ys a
    rw [foldlM_nil, append_nil]
    exact ret a
  | cons x xs ih =>
    intro ys a
    refine seq (hstep x (mem_cons_self ..) ys a) fun a' => ?_
    rw [append_cons ys x xs]
    exact ih (fun y hy => hstep y (mem_cons_of_mem _ hy)) _ _

end Triple

end Fallible

import Chronoxide.Codec.Parser

/-! Logs of frames. A reader that does nothing but wait for its symbols fails in one way on every cut
of what it accepts, so a log that was cut off is read up to its last whole frame. -/

namespace Codec
open List

variable {ε β α γ : Type}

namespace Parser

/-- What is accepted does not depend on what follows it, and every cut of it is the error `e`. -/
def Streams (e : ε) (p : Parser ε β α) : Prop :=
  ∀ bs a rest, p bs = .ok (a, rest) → ∃ front, bs = front ++ rest ∧
    (∀ more, p (front ++ more) = .ok (a, more)) ∧ ∀ k < front.length, p (front.take k) = .error e

section
variable {e : ε} {p : Parser ε β α} {f : α → Parser ε β γ}

theorem bind_of_error {bs : List β} (h : p bs = .error e) : (p >>= f) bs = .error e := by
  change (p bs >>= fun r => f r.1 r.2) = _
  rw [h]
  rfl

theorem streams_lift (x : Except ε α) : Streams e (lift x : Parser ε β α) := by
  intro bs a rest h
  obtain ⟨rfl, rfl⟩ := lift_ok.mp h
  exact ⟨[], rfl, fun more => rfl, fun k hk => absurd hk (Nat.not_lt_zero k)⟩

theorem streams_ensure (c : Prop) [Decidable c] (e' : ε) :
    Streams e (ensure c e' : Parser ε β Unit) := by
  intro bs u rest h
  obtain ⟨hc, rfl⟩ := ensure_ok.mp h
  exact ⟨[], rfl, fun more => ensure_ok.mpr ⟨hc, rfl⟩, fun k hk => absurd hk (Nat.not_lt_zero k)⟩

theorem streams_takeN (n : Nat) : Streams e (takeN n e : Parser ε β (List β)) := by
  intro bs xs rest h
  obtain ⟨hn, rfl⟩ := takeN_ok.mp h
  refine ⟨xs, rfl, fun more => takeN_ok.mpr ⟨hn, rfl⟩, fun k hk => ?_⟩
  rw [takeN, if_pos (by rw [length_take]; omega)]

theorem streams_bind (hp : Streams e p) (hf : ∀ a, Streams e (f a)) : Streams e (p >>= f) := by
  intro bs c rest h
  obtain ⟨a, mid, ha, hc⟩ := bind_ok.mp h
  obtain ⟨front, rfl, hreads, hcut⟩ := hp _ _ _ ha
  obtain ⟨back, rfl, hreads', hcut'⟩ := hf a _ _ _ hc
  refine ⟨front ++ back, (append_assoc ..).symm, fun more => ?_, fun k hk => ?_⟩
  · rw [append_assoc]
    exact bind_ok.mpr ⟨a, _, hreads _, hreads' more⟩
  -- The cut is in the first part, or in what the continuation reads.
  · by_cases hfront : k < front.length
    · rw [take_append_of_le_length (Nat.le_of_lt hfront)]
      exact bind_of_error (hcut k hfront)
    rw [take_append, take_of_length_le (Nat.not_lt.mp hfront)]
    rw [length_append] at hk
    change (p (front ++ back.take (k - front.length)) >>= fun r => f r.1 r.2) = _
    rw [hreads]
    exact hcut' _ (by omega)

end

/-- The reader returns `a` from its frame, and the error `e` from every part of the frame. -/
structure IsFrame (read : Parser ε β (Option α)) (e : ε) (a : α) (frame : List β) : Prop where
  nonempty : 0 < frame.length
  reads : ∀ rest, read (frame ++ rest) = .ok (some a, rest)
  cut : ∀ k, 0 < k → k < frame.length → read (frame.take k) = .error e

/-- Calls of a reader until it returns nothing or stops with an error. -/
inductive Drains (read : Parser ε β (Option α)) : List β → List α → Except ε Unit → Prop
  | done {bs rest} : read bs = .ok (none, rest) → Drains read bs [] (.ok ())
  | failed {bs e} : read bs = .error e → Drains read bs [] (.error e)
  | more {bs rest a as out} : read bs = .ok (some a, rest) → Drains read rest as out →
      Drains read bs (a :: as) out

variable {read : Parser ε β (Option α)}

theorem Drains.unique {bs : List β} {as as' : List α} {out out' : Except ε Unit}
    (h : Drains read bs as out) (h' : Drains read bs as' out') : as' = as ∧ out' = out := by
  induction h generalizing as' out' with
  | done h => cases h' <;> simp_all
  | failed h => cases h' <;> simp_all
  | more h _ ih =>
    cases h' with
    | more h' hrest =>
      rw [h, Except.ok.injEq, Prod.mk.injEq, Option.some.injEq] at h'
      obtain ⟨rfl, rfl⟩ := h'
      obtain ⟨rfl, rfl⟩ := ih hrest
      exact ⟨rfl, rfl⟩
    | done h' => simp [h] at h'
    | failed h' => simp [h] at h'

def boundary (frames : List (List β)) (i : Nat) : Nat := (frames.take i).flatten.length

theorem boundary_succ (frame : List β) (frames : List (List β)) (i : Nat) :
    boundary (frame :: frames) (i + 1) = frame.length + boundary frames i := by
  rw [boundary, boundary, take_succ_cons, flatten_cons, length_append]

/-- The first `k` symbols of a log give the frames that end there, and an end exactly at a boundary. -/
def Recovers (read : Parser ε β (Option α)) (P : ε → Prop) (as : List α) (frames : List (List β))
    (k : Nat) : Prop :=
  ∃ n ≤ as.length, ∃ out : Except ε Unit,
    (∀ as' out', Drains read (frames.flatten.take k) as' out' ↔ as' = as.take n ∧ out' = out) ∧
    (∀ i < as.length, i < n ↔ boundary frames (i + 1) ≤ k) ∧
    (out = .ok () ↔ ∃ i, (frames.flatten.take k).length = boundary frames i) ∧
    ∀ e, out = .error e → P e

theorem recovers_of_drains {P : ε → Prop} {as : List α}
    {frames : List (List β)} {k n : Nat} {out : Except ε Unit} (hn : n ≤ as.length)
    (hdrains : Drains read (frames.flatten.take k) (as.take n) out)
    (hwhole : ∀ i < as.length, i < n ↔ boundary frames (i + 1) ≤ k)
    (hout : out = .ok () ↔ ∃ i, (frames.flatten.take k).length = boundary frames i)
    (herror : ∀ e, out = .error e → P e) : Recovers read P as frames k := by
  refine ⟨n, hn, out, fun as' out' => ⟨hdrains.unique, ?_⟩, hwhole, hout, herror⟩
  rintro ⟨rfl, rfl⟩
  exact hdrains

theorem recovers {P : ε → Prop} {e : ε} {as : List α}
    {frames : List (List β)} (hnil : read [] = .ok (none, [])) (he : P e)
    (h : Forall₂ (IsFrame read e) as frames) (k : Nat) : Recovers read P as frames k := by
  induction h generalizing k with
  | nil =>
    have hdone : Drains read (([] : List (List β)).flatten.take k) [] (.ok ()) := by
      rw [flatten_nil, take_nil]
      exact .done hnil
    exact recovers_of_drains (Nat.zero_le _) hdone (by simp) (by simp [boundary]) (by simp)
  | @cons a frame as frames hframe _ ih =>
    have hpos := hframe.nonempty
    by_cases hwhole : frame.length ≤ k
    -- The frame is whole: it is read, and the rest of the log is cut where it was.
    · obtain ⟨n, hn, out, hdrains, hinside, hout, herror⟩ := ih (k - frame.length)
      have hlog : (frame :: frames).flatten.take k =
          frame ++ frames.flatten.take (k - frame.length) := by
        rw [flatten_cons, take_append, take_of_length_le hwhole]
      refine recovers_of_drains (Nat.succ_le_succ hn) ?_ ?_ ?_ herror
      · rw [hlog, take_succ_cons]
        exact .more (hframe.reads _) ((hdrains _ _).mpr ⟨rfl, rfl⟩)
      · rintro (_ | i) hi
        · rw [boundary_succ, boundary, take_zero, flatten_nil, length_nil]
          omega
        · rw [boundary_succ, Nat.add_lt_add_iff_right, hinside i (Nat.lt_of_succ_lt_succ hi)]
          omega
      rw [hout, hlog, length_append]
      constructor
      · rintro ⟨i, hi⟩
        exact ⟨i + 1, by rw [boundary_succ, hi]⟩
      rintro ⟨_ | i, hi⟩
      · simp only [boundary, take_zero, flatten_nil, length_nil] at hi
        omega
      · exact ⟨i, by rw [boundary_succ] at hi; omega⟩
    have hlog : (frame :: frames).flatten.take k = frame.take k := by
      rw [flatten_cons, take_append_of_le_length (by omega)]
    have hlength : (frame.take k).length = k := by
      rw [length_take]
      omega
    have hinside : ∀ i < (a :: as).length, i < 0 ↔ boundary (frame :: frames) (i + 1) ≤ k := by
      intro i _
      rw [boundary_succ]
      omega
    rcases Nat.eq_zero_or_pos k with rfl | hk
    · exact recovers_of_drains (Nat.zero_le _) (.done hnil) hinside (iff_of_true rfl ⟨0, rfl⟩)
        (by simp)
    have hfailed : Drains read (frame.take k) [] (.error e) :=
      .failed (hframe.cut k hk (Nat.not_le.mp hwhole))
    refine recovers_of_drains (Nat.zero_le _) (hlog ▸ hfailed) hinside ?_ ?_
    · rw [hlog, hlength]
      refine iff_of_false (by simp) ?_
      rintro ⟨_ | i, hi⟩
      · simp only [boundary, take_zero, flatten_nil, length_nil] at hi
        omega
      · rw [boundary_succ] at hi
        omega
    · rintro e' he'
      rw [← Except.error.inj he']
      exact he

theorem Recovers.cut {P : ε → Prop} {as : List α} {frames : List (List β)} {k i : Nat}
    (h : Recovers read P as frames k) (hi : i < as.length) (hwhole : boundary frames i ≤ k)
    (hcut : k < boundary frames (i + 1))
    (hinside : ∀ j, (frames.flatten.take k).length ≠ boundary frames j) :
    ∃ e, P e ∧ Drains read (frames.flatten.take k) (as.take i) (.error e) := by
  obtain ⟨n, -, out, hdrains, hread, hout, herror⟩ := h
  have hle : n ≤ i :=
    Nat.le_of_not_lt fun hlt => Nat.not_le.mpr hcut ((hread i hi).mp hlt)
  have hge : i ≤ n := by
    cases i with
    | zero => exact Nat.zero_le n
    | succ i => exact (hread i (Nat.lt_of_succ_lt hi)).mpr hwhole
  obtain rfl := Nat.le_antisymm hle hge
  cases out with
  | ok =>
    obtain ⟨j, hj⟩ := hout.mp rfl
    exact absurd hj (hinside j)
  | error e => exact ⟨e, herror e rfl, (hdrains _ _).mpr ⟨rfl, rfl⟩⟩

end Parser

end Codec

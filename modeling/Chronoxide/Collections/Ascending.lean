import Chronoxide.Codec.Parser
import Mathlib.Data.List.Perm.Subperm

/-! Lists whose keys ascend, checked one by one against the key before. -/

namespace Ascending
open Codec List

variable {κ α ε : Type} [LT κ]

def From : Option κ → List κ → Prop
  | _, [] => True
  | previous, k :: ks => (∀ p ∈ previous, p < k) ∧ From (some k) ks

theorem from_some_iff [IsTrans κ (· < ·)] {p : κ} {ks : List κ} :
    From (some p) ks ↔ (∀ k ∈ ks, p < k) ∧ ks.Pairwise (· < ·) := by
  induction ks generalizing p with
  | nil => simp [From]
  | cons k ks ih =>
    rw [From, ih, forall_mem_cons, pairwise_cons]
    constructor
    · rintro ⟨hk, hks, hpairwise⟩
      have hpk := hk p rfl
      exact ⟨⟨hpk, fun k' hk' => IsTrans.trans p k k' hpk (hks k' hk')⟩, hks, hpairwise⟩
    · rintro ⟨⟨hk, -⟩, hks, hpairwise⟩
      refine ⟨fun p' hp' => ?_, hks, hpairwise⟩
      rwa [← Option.mem_some_iff.mp hp']

theorem from_none_iff [IsTrans κ (· < ·)] {ks : List κ} : From none ks ↔ ks.Pairwise (· < ·) := by
  cases ks with
  | nil => simp [From]
  | cons k ks =>
    rw [From, from_some_iff, pairwise_cons]
    simp

theorem length_le {ks : List Nat} {n : Nat} (h : ks.Pairwise (· < ·)) (hlt : ∀ k ∈ ks, k < n) :
    ks.length ≤ n := by
  have hsubset : ks ⊆ range n := fun k hk => mem_range.mpr (hlt k hk)
  have hle := (subperm_of_subset (h.imp Nat.ne_of_lt) hsubset).length_le
  rwa [length_range] at hle

variable [DecidableLT κ] {key : α → κ} {check : α → Except ε Unit} {error : ε}

/-- One step of a loop that checks every entry and its order. -/
def step (key : α → κ) (check : α → Except ε Unit) (error : ε) (previous : Option κ) (a : α) :
    Except ε (Option κ) := do
  check a
  require (∀ p ∈ previous, p < key a) error
  return some (key a)

theorem foldlM_step_ok {entries : List α} {previous : Option κ} :
    (∃ last, entries.foldlM (step key check error) previous = .ok last) ↔
      (∀ a ∈ entries, check a = .ok ()) ∧ From previous (entries.map key) := by
  induction entries generalizing previous with
  | nil => exact iff_of_true ⟨previous, rfl⟩ ⟨by simp, trivial⟩
  | cons a entries ih =>
    simp only [foldlM_cons, step, except_bind_ok, require_ok, except_pure_ok,
      forall_mem_cons, map_cons, From]
    constructor
    · rintro ⟨last, _, ⟨_, hcheck, _, hless, rfl⟩, hrest⟩
      obtain ⟨hchecks, hfrom⟩ := ih.mp ⟨last, hrest⟩
      exact ⟨⟨hcheck, hchecks⟩, hless, hfrom⟩
    · rintro ⟨⟨hcheck, hchecks⟩, hless, hfrom⟩
      obtain ⟨last, hlast⟩ := ih.mpr ⟨hchecks, hfrom⟩
      exact ⟨last, some (key a), ⟨(), hcheck, (), hless, rfl⟩, hlast⟩

end Ascending

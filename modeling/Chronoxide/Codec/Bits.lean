import Mathlib.Data.Nat.Bitwise
import Mathlib.Tactic.Ring
import Mathlib.Tactic.Common

/-! Fixed-width numerals: little-endian byte strings and big-endian bit strings, with the
arithmetic that splits a numeral into its high and low parts. -/

namespace Codec
open List

/-- The `n` low bytes of `x`, least significant first. -/
def leBytes : Nat → Nat → List UInt8
  | 0, _ => []
  | n + 1, x => UInt8.ofNat (x % 256) :: leBytes n (x / 256)

def leNat : List UInt8 → Nat
  | [] => 0
  | b :: bs => b.toNat + 256 * leNat bs

variable (n x : Nat)

@[simp] theorem leBytes_length : (leBytes n x).length = n := by
  induction n generalizing x with
  | zero => rfl
  | succ n ih => simp [leBytes, ih]

theorem leNat_lt (bs : List UInt8) : leNat bs < 256 ^ bs.length := by
  induction bs with
  | nil => simp [leNat]
  | cons b bs ih =>
    have hb : b.toNat < 256 := b.toNat_lt
    simp only [leNat, length_cons, pow_succ]
    omega

theorem leNat_leBytes : leNat (leBytes n x) = x % 256 ^ n := by
  induction n generalizing x with
  | zero => simp [leBytes, leNat, Nat.mod_one]
  | succ n ih =>
    have hb : (UInt8.ofNat (x % 256)).toNat = x % 256 := by simp
    rw [leBytes, leNat, hb, ih, pow_succ, mul_comm (256 ^ n), Nat.mod_mul]

theorem leBytes_leNat (bs : List UInt8) : leBytes bs.length (leNat bs) = bs := by
  induction bs with
  | nil => rfl
  | cons b bs ih =>
    have hb : b.toNat < 256 := b.toNat_lt
    have hmod : (b.toNat + 256 * leNat bs) % 256 = b.toNat := by omega
    have hdiv : (b.toNat + 256 * leNat bs) / 256 = leNat bs := by omega
    rw [length_cons, leNat, leBytes, hmod, hdiv, ih, UInt8.ofNat_toNat]

theorem leNat_eq_iff {bs : List UInt8} {n x : Nat} (hn : bs.length = n) (hx : x < 256 ^ n) :
    leNat bs = x ↔ bs = leBytes n x := by
  constructor
  · rintro rfl
    rw [← hn, leBytes_leNat]
  · rintro rfl
    rw [leNat_leBytes, Nat.mod_eq_of_lt hx]

/-- The `n` low bits of `x`, most significant first. -/
def bitsBE : Nat → Nat → List Bool
  | 0, _ => []
  | n + 1, x => x.testBit n :: bitsBE n x

def bitsNat : List Bool → Nat
  | [] => 0
  | b :: bs => b.toNat * 2 ^ bs.length + bitsNat bs

@[simp] theorem bitsBE_length : (bitsBE n x).length = n := by
  induction n with
  | zero => rfl
  | succ n ih => simp [bitsBE, ih]

theorem bitsBE_congr {n x y : Nat} (h : ∀ i < n, x.testBit i = y.testBit i) :
    bitsBE n x = bitsBE n y := by
  induction n with
  | zero => rfl
  | succ n ih =>
    rw [bitsBE, bitsBE, h n (Nat.lt_succ_self n), ih fun i hi => h i (Nat.lt_succ_of_lt hi)]

@[simp] theorem bitsBE_mod : bitsBE n (x % 2 ^ n) = bitsBE n x :=
  bitsBE_congr fun i hi => by rw [Nat.testBit_mod_two_pow]; simp [hi]

theorem bitsBE_add (m n x : Nat) : bitsBE (m + n) x = bitsBE m (x / 2 ^ n) ++ bitsBE n x := by
  induction m with
  | zero => simp [bitsBE]
  | succ m ih =>
    rw [Nat.succ_add, bitsBE, bitsBE, ih, ← Nat.shiftRight_eq_div_pow, Nat.testBit_shiftRight,
      Nat.add_comm n m, cons_append]

theorem bitsBE_append {m n x y : Nat} (hy : y < 2 ^ n) :
    bitsBE m x ++ bitsBE n y = bitsBE (m + n) (x * 2 ^ n + y) := by
  have hdiv : (x * 2 ^ n + y) / 2 ^ n = x := by
    rw [mul_comm, Nat.mul_add_div (Nat.two_pow_pos n), Nat.div_eq_of_lt hy, Nat.add_zero]
  have hmod : (x * 2 ^ n + y) % 2 ^ n = y := by
    rw [mul_comm, Nat.mul_add_mod, Nat.mod_eq_of_lt hy]
  rw [bitsBE_add, hdiv, ← bitsBE_mod n (x * 2 ^ n + y), hmod]

theorem bitsBE_zero (n : Nat) : bitsBE n 0 = replicate n false := by
  induction n with
  | zero => rfl
  | succ n ih => rw [bitsBE, Nat.zero_testBit, ih, replicate_succ]

theorem bitsNat_bitsBE : bitsNat (bitsBE n x) = x % 2 ^ n := by
  induction n with
  | zero => simp [bitsBE, bitsNat, Nat.mod_one]
  | succ n ih =>
    rw [bitsBE, bitsNat, ih, bitsBE_length, Nat.toNat_testBit, pow_succ, Nat.mod_mul]
    ring

theorem bitsBE_injective {n x y : Nat} (hx : x < 2 ^ n) (hy : y < 2 ^ n)
    (h : bitsBE n x = bitsBE n y) : x = y := by
  have := congrArg bitsNat h
  rwa [bitsNat_bitsBE, bitsNat_bitsBE, Nat.mod_eq_of_lt hx, Nat.mod_eq_of_lt hy] at this

/-! `n` bits with value `t` at the top of a word of `w` bits are the number `t * 2 ^ (w - n)`. -/

section Aligned
variable {w n k t v : Nat}

theorem top_lt (hk : k ≤ n) (ht : t < 2 ^ n) : t / 2 ^ (n - k) < 2 ^ k := by
  rwa [Nat.div_lt_iff_lt_mul (Nat.two_pow_pos _), pow_mul_pow_sub 2 hk]

theorem append_lt (ht : t < 2 ^ n) (hv : v < 2 ^ k) : t * 2 ^ k + v < 2 ^ (n + k) := by
  have hle := Nat.mul_le_mul_right (2 ^ k) (Nat.succ_le_of_lt ht)
  rw [Nat.succ_mul] at hle
  rw [pow_add]
  omega

theorem aligned_top (hk : k ≤ n) (hn : n ≤ w) :
    (t * 2 ^ (w - n)) >>> (w - k) = t / 2 ^ (n - k) := by
  rw [Nat.shiftRight_eq_div_pow, show w - k = w - n + (n - k) by omega, pow_add, mul_comm t,
    Nat.mul_div_mul_left _ _ (Nat.two_pow_pos _)]

theorem aligned_drop (hk : k ≤ n) (hn : n ≤ w) :
    ((t * 2 ^ (w - n)) <<< k) % 2 ^ w = t % 2 ^ (n - k) * 2 ^ (w - (n - k)) := by
  have hshift : 2 ^ (w - n) * 2 ^ k = 2 ^ (w - (n - k)) := by
    rw [← pow_add]
    congr 1
    omega
  rw [Nat.shiftLeft_eq, mul_assoc, hshift, ← pow_mul_pow_sub 2 (show n - k ≤ w by omega),
    Nat.mul_mod_mul_right]

theorem aligned_append (hn : n + k ≤ w) (hv : v < 2 ^ k) :
    t * 2 ^ (w - n) ||| (v <<< (w - n - k)) % 2 ^ w = (t * 2 ^ k + v) * 2 ^ (w - (n + k)) := by
  have hsplit : 2 ^ (w - n) = 2 ^ k * 2 ^ (w - n - k) := (pow_mul_pow_sub 2 (by omega)).symm
  have hlow : v * 2 ^ (w - n - k) < 2 ^ (w - n) := by
    rw [hsplit]
    exact Nat.mul_lt_mul_of_pos_right hv (Nat.two_pow_pos _)
  rw [Nat.shiftLeft_eq, Nat.mod_eq_of_lt (hlow.trans_le (Nat.pow_le_pow_right Nat.two_pos
    (Nat.sub_le w n))), mul_comm t, ← Nat.two_pow_add_eq_or_of_lt hlow, hsplit, Nat.sub_add_eq]
  ring

end Aligned

/-- The bits of a byte string, each byte most significant bit first. -/
def byteBits (bs : List UInt8) : List Bool := bs.flatMap fun b => bitsBE 8 b.toNat

@[simp] theorem byteBits_nil : byteBits [] = [] := rfl

@[simp] theorem byteBits_cons (b : UInt8) (bs : List UInt8) :
    byteBits (b :: bs) = bitsBE 8 b.toNat ++ byteBits bs := rfl

@[simp] theorem byteBits_append (as bs : List UInt8) :
    byteBits (as ++ bs) = byteBits as ++ byteBits bs := flatMap_append

@[simp] theorem byteBits_length (bs : List UInt8) : (byteBits bs).length = 8 * bs.length := by
  induction bs with
  | nil => rfl
  | cons b bs ih => simp [ih]; omega

theorem byteBits_injective : Function.Injective byteBits := by
  intro as
  induction as with
  | nil =>
    intro bs h
    cases bs with
    | nil => rfl
    | cons b bs => exact absurd (congrArg length h) (by simp; omega)
  | cons a as ih =>
    intro bs h
    cases bs with
    | nil => simpa using congrArg length h
    | cons b bs =>
      obtain ⟨hab, hrest⟩ := append_inj h (by simp)
      have : a = b := UInt8.toNat_inj.mp (bitsBE_injective a.toNat_lt b.toNat_lt hab)
      rw [this, ih hrest]

def beBytes (n x : Nat) : List UInt8 := (leBytes n x).reverse

theorem leBytes_add (m n x : Nat) : leBytes (m + n) x = leBytes m x ++ leBytes n (x / 256 ^ m) := by
  induction m generalizing x with
  | zero => simp [leBytes]
  | succ m ih =>
    rw [Nat.succ_add, leBytes, leBytes, ih, cons_append, Nat.div_div_eq_div_mul,
      pow_succ, mul_comm]

theorem beBytes_drop {k n : Nat} (hk : k ≤ n) (x : Nat) :
    (beBytes n x).drop (n - k) = beBytes k x := by
  obtain ⟨m, rfl⟩ := Nat.exists_eq_add_of_le hk
  rw [beBytes, leBytes_add, reverse_append, Nat.add_sub_cancel_left,
    drop_left' (by simp), beBytes]

theorem byteBits_beBytes : byteBits (beBytes n x) = bitsBE (8 * n) x := by
  induction n generalizing x with
  | zero => rfl
  | succ n ih =>
    have hb : (UInt8.ofNat (x % 256)).toNat = x % 2 ^ 8 := by simp
    rw [beBytes, leBytes, reverse_cons, byteBits_append, ← beBytes, ih, byteBits_cons,
      byteBits_nil, append_nil, hb, bitsBE_mod, Nat.mul_succ, bitsBE_add]
    norm_num

end Codec

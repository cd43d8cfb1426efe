import Chronoxide.Encoding.SchemaVarlen

/-! Values of variable length, each behind its own length (`encoding/varlen.rs`). -/

namespace Chronoxide
open Codec

class VarLenEncoding (T : Type) where
  encodeInto : T → Except IoError Bytes
  decodeFrom : Bytes → Except IoError T

/-- A value that was encoded is read back from its bytes. -/
class LawfulVarLen (T : Type) [VarLenEncoding T] : Prop where
  decodeFrom_encodeInto : ∀ {value : T} {bytes : Bytes}, bytes.length < 2 ^ 64 →
    VarLenEncoding.encodeInto value = .ok bytes → VarLenEncoding.decodeFrom bytes = .ok value

open VarLenEncoding LawfulVarLen

/-- `scratch` holds the last value encoded and is cleared before the next: it is no part of the
state. -/
structure VarLenCodec (T : Type) where
  values : Bytes

namespace VarLenCodec

variable {T : Type} [VarLenEncoding T]

def encodeValue (self : VarLenCodec T) (value : T) : Except IoError (VarLenCodec T) := do
  let scratch ← encodeInto value
  return ⟨self.values ++ (encodeLen scratch.length ++ scratch)⟩

def new (first : T) : Except IoError (VarLenCodec T) := encodeValue ⟨[]⟩ first

def push (self : VarLenCodec T) (value : T) : Except IoError (VarLenCodec T) :=
  self.encodeValue value

def decodeValue : Reader T := do
  let len ← decodeLen
  let valueBuf ← Parser.takeN len (unexpectedEof "value buffer truncated")
  Parser.lift (decodeFrom valueBuf)

def decodeValues (buf : Bytes) (count : Nat) : Except IoError (List T) :=
  let read : Reader (List T) := do
    let values ← decodeValue.times count
    Parser.atEnd (invalidData "value buffer has trailing bytes")
    return values
  read.value buf

/-- The codec has taken in `vs`. -/
def Tracks (c : VarLenCodec T) (vs : List T) : Prop :=
  ∃ scratches : List Bytes, vs.map encodeInto = scratches.map .ok ∧
    c.values = scratches.flatMap fun scratch => encodeLen scratch.length ++ scratch

theorem Tracks.step {c c' : VarLenCodec T} {vs : List T} {v : T} (h : c.Tracks vs)
    (hstep : c.encodeValue v = .ok c') : c'.Tracks (vs ++ [v]) := by
  obtain ⟨scratches, hencoded, hvalues⟩ := h
  obtain ⟨scratch, hscratch, hc'⟩ := except_bind_ok.mp hstep
  obtain rfl := except_pure_ok.mp hc'
  refine ⟨scratches ++ [scratch], ?_, ?_⟩
  · rw [List.map_append, List.map_append, hencoded, List.map_singleton, List.map_singleton,
      hscratch]
  · rw [hvalues, List.flatMap_append, List.flatMap_singleton]

variable [LawfulVarLen T]

theorem decodeValue_encoded {v : T} {scratch rest : Bytes} (hlen : scratch.length < 2 ^ 64)
    (h : encodeInto v = .ok scratch) :
    decodeValue (encodeLen scratch.length ++ scratch ++ rest) = .ok (v, rest) := by
  simp only [decodeValue, Parser.bind_ok, decodeLen_ok, Parser.takeN_ok, Parser.lift_ok]
  exact ⟨_, scratch ++ rest, ⟨hlen, by rw [List.append_assoc]⟩, scratch, rest, ⟨rfl, rfl⟩,
    decodeFrom_encodeInto hlen h, rfl⟩

theorem decodeValue_times {vs : List T} {scratches : List Bytes}
    (h : vs.map encodeInto = scratches.map .ok)
    (hlen : ∀ scratch ∈ scratches, scratch.length < 2 ^ 64) :
    decodeValue.times vs.length
      (scratches.flatMap fun scratch => encodeLen scratch.length ++ scratch) = .ok (vs, []) := by
  induction vs generalizing scratches with
  | nil =>
    obtain rfl : scratches = [] := List.map_eq_nil_iff.mp h.symm
    rfl
  | cons v vs ih =>
    obtain ⟨scratch, scratches, rfl⟩ : ∃ scratch rest, scratches = scratch :: rest := by
      cases scratches with
      | nil => cases h
      | cons scratch rest => exact ⟨scratch, rest, rfl⟩
    rw [List.map_cons, List.map_cons] at h
    obtain ⟨hv, hrest⟩ := List.cons.inj h
    rw [List.length_cons, Parser.times, List.flatMap_cons, Parser.bind_ok]
    refine ⟨v, _, decodeValue_encoded (hlen scratch (by simp)) hv, ?_⟩
    rw [Parser.bind_ok]
    exact ⟨vs, [], ih hrest fun s hs => hlen s (by simp [hs]), rfl⟩

/-- What the codec took is what its bytes decode to. -/
theorem Tracks.decodeValues {c : VarLenCodec T} {vs : List T} (h : c.Tracks vs)
    (hlen : c.values.length < 2 ^ 64) :
    VarLenCodec.decodeValues c.values vs.length = .ok vs := by
  obtain ⟨scratches, hencoded, hvalues⟩ := h
  have hshort : ∀ scratch ∈ scratches, scratch.length < 2 ^ 64 := by
    intro scratch hscratch
    have := length_le_flatMap (fun s : Bytes => encodeLen s.length ++ s) hscratch
    rw [← hvalues, List.length_append] at this
    omega
  rw [VarLenCodec.decodeValues, Parser.value_ok]
  refine ⟨[], ?_⟩
  rw [Parser.bind_ok]
  refine ⟨vs, [], by rw [hvalues]; exact decodeValue_times hencoded hshort, ?_⟩
  rw [Parser.bind_ok]
  exact ⟨(), [], by simp, rfl⟩

end VarLenCodec

end Chronoxide

import Chronoxide.Codec.FirstSeen
import Chronoxide.Head.FieldCodec

/-! Schema-tagged values (`encoding/schema_varlen.rs`): a table of distinct schemas in order of
first use, then each value behind the number of its schema. -/

namespace Chronoxide
open Codec Parser List

class SchemaVarLenEncoding (T : Type) where
  Schema : Type
  encodeSchemaFromValue : T → Except IoError Bytes
  decodeSchema : Reader Schema
  encodeValueWithSchema : T → Schema → Except IoError Bytes
  decodeValueWithSchema : Schema → Reader T

open SchemaVarLenEncoding (Schema encodeSchemaFromValue decodeSchema encodeValueWithSchema
  decodeValueWithSchema)

/-- `schemaIndex` lists the entries of the hash map, newest first. -/
structure SchemaVarLenCodec (T : Type) [SchemaVarLenEncoding T] where
  schemaBytes : List Bytes
  schemas : List (Schema T)
  schemaIndex : List (Bytes × Nat)
  lastSchemaId : Option Nat
  values : Bytes

def decodeWhole {α : Type} (decode : Reader α) (trailing : String) (buf : Bytes) :
    Except IoError α :=
  Parser.value (do
    let a ← decode
    Parser.atEnd (invalidData trailing)
    return a) buf

def encodeEntry (schema : Bytes) : Bytes := encodeLen schema.length ++ schema

namespace SchemaVarLenCodec

variable {T : Type} [SchemaVarLenEncoding T]

def empty : SchemaVarLenCodec T := ⟨[], [], [], none, []⟩

variable (self : SchemaVarLenCodec T)

def existingSchemaId (scratch : Bytes) : Option Nat :=
  match self.lastSchemaId with
  | some lastId =>
    if self.schemaBytes[lastId]? = some scratch then some lastId
    else self.schemaIndex.lookup scratch
  | none => self.schemaIndex.lookup scratch

def schemaBufferTrailing : String := "schema buffer has trailing bytes"

/-- `value_append_len` is the only place where the encoded length can overflow. -/
def appendValue (schemaId : Nat) (valueScratch : Bytes) : Except IoError (SchemaVarLenCodec T) :=
  if varintLen (UInt64.ofNat schemaId) + valueScratch.length ≥ 2 ^ 64 then
    .error (invalidInput "encoded value length overflows")
  else .ok { self with lastSchemaId := some schemaId,
                       values := self.values ++ (encodeLen schemaId ++ valueScratch) }

def encodeValue (value : T) : Except IoError (SchemaVarLenCodec T) := do
  let schemaScratch ← encodeSchemaFromValue value
  match self.existingSchemaId schemaScratch with
  | some schemaId =>
    match self.schemas[schemaId]? with
    | none => throw (invalidData "schema id out of range")
    | some schema =>
      let valueScratch ← encodeValueWithSchema value schema
      self.appendValue schemaId valueScratch
  | none =>
    let schemaId := self.schemas.length
    if schemaId ≥ 2 ^ 32 then throw (invalidInput "schema id overflow")
    let schema ← decodeWhole (decodeSchema (T := T)) schemaBufferTrailing schemaScratch
    let valueScratch ← encodeValueWithSchema value schema
    appendValue { self with schemas := self.schemas ++ [schema],
                            schemaBytes := self.schemaBytes ++ [schemaScratch],
                            schemaIndex := (schemaScratch, schemaId) :: self.schemaIndex }
      schemaId valueScratch

def new (first : T) : Except IoError (SchemaVarLenCodec T) := empty.encodeValue first

def push (value : T) : Except IoError (SchemaVarLenCodec T) :=
  self.encodeValue value

def writeSchemaHeader (schemaBytes : List Bytes) : Bytes :=
  encodeLen schemaBytes.length ++ schemaBytes.flatMap encodeEntry

def intoBytes : Bytes :=
  writeSchemaHeader self.schemaBytes ++ self.values

end SchemaVarLenCodec

def ensureMinimumEncodedItems (itemCount minimumBytesPerItem : Nat) (field : String) :
    Reader Unit :=
  ensureDecodedItemsFit itemCount minimumBytesPerItem field

/-- The entries of the schema table. `readSchemaBuf` cuts out one entry. -/
def decodeSchemaEntries {S : Type} (readSchemaBuf : Reader Bytes)
    (decodeOne : Bytes → Except IoError S) : Nat → List Bytes → Reader (List S)
  | 0, _ => return []
  | n + 1, encodedSchemas => do
    let schemaBuf ← readSchemaBuf
    Parser.ensure (schemaBuf ∉ encodedSchemas)
      (invalidData "duplicate schema definition is noncanonical")
    let schema ← Parser.lift (decodeOne schemaBuf)
    let schemas ← decodeSchemaEntries readSchemaBuf decodeOne n (schemaBuf :: encodedSchemas)
    return schema :: schemas

/-- The schema of the next value, and the number of schemas seen after it. -/
def decodeSchemaIndex {S : Type} (schemas : List S) (nextFirstSeenSchema : Nat) :
    Reader (S × Nat) := do
  let schemaIdx := (← decodeVarint).toNat
  let schema ← Parser.ofOption schemas[schemaIdx]? (invalidData "schema id out of range")
  Parser.ensure (schemaIdx ≤ nextFirstSeenSchema)
    (invalidData "schema IDs are not in deterministic first-seen order")
  Parser.ensure (schemaIdx = nextFirstSeenSchema → nextFirstSeenSchema + 1 < 2 ^ 64)
    (invalidData "schema first-use count overflows")
  return (schema, if schemaIdx = nextFirstSeenSchema then nextFirstSeenSchema + 1
    else nextFirstSeenSchema)

def decodeTaggedValues {S V : Type} (schemas : List S) (decodeValue : S → Reader V) :
    Nat → Nat → Reader (List V × Nat)
  | 0, seen => return ([], seen)
  | n + 1, seen => do
    let (schema, seen) ← decodeSchemaIndex schemas seen
    let value ← decodeValue schema
    let (values, seen) ← decodeTaggedValues schemas decodeValue n seen
    return (value :: values, seen)

namespace SchemaVarLenCodec

variable {T : Type} [SchemaVarLenEncoding T]

/-- One schema entry; `bufLen` is the length of the whole buffer, so that
`bufLen - remaining` is the cursor. -/
def readSchemaBuf (bufLen : Nat) : Reader Bytes := do
  let len ← decodeLen
  let remaining ← Parser.remaining
  Parser.ensure (bufLen - remaining + len < 2 ^ 64) (invalidData "schema range overflows")
  Parser.takeN len (unexpectedEof "schema buffer truncated")

def decodeValuesFrom (bufLen count : Nat) : Reader (List T) := do
  let schemaCount ← decodeLen
  Parser.ensure (¬((count = 0 ∧ schemaCount ≠ 0) ∨
      (count ≠ 0 ∧ ¬(1 ≤ schemaCount ∧ schemaCount ≤ count))))
    (invalidData "schema count is inconsistent with the value count")
  ensureMinimumEncodedItems schemaCount 1 "schema headers"
  let schemas ← decodeSchemaEntries (readSchemaBuf bufLen)
    (decodeWhole (decodeSchema (T := T)) schemaBufferTrailing) schemaCount []
  ensureMinimumEncodedItems count 1 "schema-tagged values"
  let (values, seen) ← decodeTaggedValues schemas decodeValueWithSchema count 0
  Parser.ensure (seen = schemaCount) (invalidData "schema table contains an unused schema")
  Parser.atEnd (invalidData "value buffer has trailing bytes")
  return values

def decodeValues (buf : Bytes) (count : Nat) : Except IoError (List T) :=
  Parser.value (decodeValuesFrom buf.length count) buf

end SchemaVarLenCodec

/-- What the typed values guarantee: a value splits into its schema and the rest, each with one
encoding. Inputs of 2^64 bytes and more do not exist, so lengths survive their 64-bit form. -/
class LawfulSchemaVarLen (T : Type) [SchemaVarLenEncoding T] where
  schemaOf : T → Schema T
  SchemaValid : Schema T → Prop
  Valid : T → Prop
  encodeSchema : Schema T → Bytes
  encodeRest : T → Bytes
  encodeSchemaFromValue_ok : ∀ {v : T} {b : Bytes},
    encodeSchemaFromValue v = .ok b ↔ SchemaValid (schemaOf v) ∧ b = encodeSchema (schemaOf v)
  encodeValueWithSchema_ok : ∀ {v : T} {b : Bytes},
    encodeValueWithSchema v (schemaOf v) = .ok b ↔ Valid v ∧ b = encodeRest v
  decodeSchema_ok : ∀ {bs rest : Bytes} {s : Schema T}, bs.length < 2 ^ 64 →
    (decodeSchema bs = .ok (s, rest) ↔ SchemaValid s ∧ bs = encodeSchema s ++ rest)
  decodeValueWithSchema_ok : ∀ {bs rest : Bytes} {s : Schema T} {v : T}, bs.length < 2 ^ 64 →
    SchemaValid s →
    (decodeValueWithSchema s bs = .ok (v, rest) ↔
      (Valid v ∧ schemaOf v = s) ∧ bs = encodeRest v ++ rest)

theorem decodeWhole_ok {α : Type} {decode : Reader α} {trailing : String} {buf : Bytes} {a : α} :
    decodeWhole decode trailing buf = .ok a ↔ decode buf = .ok (a, []) := by
  rw [decodeWhole, value_ok]
  simp only [bind_ok, atEnd_ok, pure_ok]
  constructor
  · rintro ⟨rest, a', mid, h, u, mid', ⟨rfl, rfl⟩, rfl, rfl⟩
    exact h
  · intro h
    exact ⟨[], a, [], h, (), [], ⟨rfl, rfl⟩, rfl, rfl⟩

namespace LawfulSchemaVarLen

variable {T : Type} [SchemaVarLenEncoding T] [LawfulSchemaVarLen T]

def key (v : T) : Bytes := encodeSchema (schemaOf v)

theorem decodeWhole_schema {buf : Bytes} {s : Schema T} (trailing : String)
    (hlen : buf.length < 2 ^ 64) :
    decodeWhole (decodeSchema (T := T)) trailing buf = .ok s ↔
      SchemaValid s ∧ buf = encodeSchema s := by
  rw [decodeWhole_ok, decodeSchema_ok hlen, append_nil]

theorem encodeSchema_injective {s s' : Schema T} (hs : SchemaValid s) (hs' : SchemaValid s')
    (hlen : (encodeSchema s).length < 2 ^ 64) (h : encodeSchema s = encodeSchema s') : s = s' := by
  have h1 := (decodeWhole_schema "" hlen).mpr ⟨hs, rfl⟩
  have h2 := (decodeWhole_schema "" hlen).mpr ⟨hs', h⟩
  exact Except.ok.inj (h1.symm.trans h2)

def encodeTagged (table : List Bytes) (v : T) : Bytes :=
  encodeLen (numberOf table (key v)) ++ encodeRest v

def encodeValues (vs : List T) : Bytes :=
  SchemaVarLenCodec.writeSchemaHeader (firstSeen [] (vs.map key)) ++
    vs.flatMap (encodeTagged (firstSeen [] (vs.map key)))

end LawfulSchemaVarLen

def ReadsEntry (readBuf : Reader Bytes) (N : Nat) : Prop :=
  ∀ {bs b rest : Bytes}, bs.length ≤ N →
    (readBuf bs = .ok (b, rest) ↔ bs = encodeEntry b ++ rest)

open SchemaVarLenCodec

theorem readSchemaBuf_readsEntry {N : Nat} (hN : N < 2 ^ 64) : ReadsEntry (readSchemaBuf N) N := by
  intro bs b rest hbs
  simp only [readSchemaBuf, bind_ok, decodeLen_ok, remaining_ok,
    ensure_ok, exists_ensure, takeN_ok, encodeEntry, append_assoc]
  constructor
  · rintro ⟨n, mid, ⟨hn, rfl⟩, r, mid', ⟨rfl, rfl⟩, -, rfl, rfl⟩
    rfl
  rintro rfl
  simp only [length_append] at hbs
  refine ⟨b.length, b ++ rest, ⟨by omega, rfl⟩, _, _, ⟨rfl, rfl⟩, ?_, rfl, rfl⟩
  rw [length_append]
  omega

variable {bs rest : Bytes}

theorem decodeSchemaEntries_ok {S P : Type} {readBuf : Reader Bytes}
    {decodeOne : Bytes → Except IoError P} {ValidS : S → Prop} {enc : S → Bytes} {proj : S → P}
    {N : Nat} (hN : N < 2 ^ 64) (hread : ReadsEntry readBuf N)
    (hone : ∀ {b : Bytes} {p : P}, b.length < 2 ^ 64 →
      (decodeOne b = .ok p ↔ ∃ s, (ValidS s ∧ b = enc s) ∧ proj s = p))
    {n : Nat} {seen : List Bytes} (hbs : bs.length ≤ N) {ps : List P} :
    decodeSchemaEntries readBuf decodeOne n seen bs = .ok (ps, rest) ↔
      ∃ ss : List S, ss.map proj = ps ∧ ss.length = n ∧ (∀ s ∈ ss, ValidS s) ∧
        (ss.map enc).Nodup ∧ (∀ s ∈ ss, enc s ∉ seen) ∧
        bs = (ss.map enc).flatMap encodeEntry ++ rest := by
  induction n generalizing seen bs ps with
  | zero =>
    simp only [decodeSchemaEntries, pure_ok]
    constructor
    · rintro ⟨rfl, rfl⟩
      exact ⟨[], by simp⟩
    · rintro ⟨ss, rfl, hlen, -, -, -, rfl⟩
      obtain rfl := length_eq_zero_iff.mp hlen
      exact ⟨rfl, rfl⟩
  | succ n ih =>
    simp only [decodeSchemaEntries, bind_ok, ensure_ok, exists_ensure, lift_ok, pure_ok]
    constructor
    · rintro ⟨b, mid, hb, hnew, p, mid', ⟨hp, rfl⟩, ps', mid'', hrest, rfl, rfl⟩
      obtain rfl := (hread hbs).mp hb
      simp only [encodeEntry, length_append] at hbs
      obtain ⟨s, ⟨hs, rfl⟩, rfl⟩ := (hone (by omega)).mp hp
      obtain ⟨ss, rfl, rfl, hvalid, hnodup, hfresh, rfl⟩ :=
        (ih (by omega)).mp hrest
      refine ⟨s :: ss, rfl, rfl, ?_, ?_, ?_, ?_⟩
      · simpa using ⟨hs, hvalid⟩
      · rw [map_cons, nodup_cons]
        refine ⟨fun hmem => ?_, hnodup⟩
        obtain ⟨s', hs', heq⟩ := mem_map.mp hmem
        exact hfresh s' hs' (by rw [heq]; exact mem_cons_self ..)
      · simp only [mem_cons, forall_eq_or_imp]
        exact ⟨hnew, fun s' hs' hmem => hfresh s' hs' (mem_cons_of_mem _ hmem)⟩
      · rw [map_cons, flatMap_cons, append_assoc]
    rintro ⟨ss, rfl, hlen, hvalid, hnodup, hfresh, rfl⟩
    obtain ⟨s, ss, rfl⟩ : ∃ s ss', ss = s :: ss' :=
      exists_cons_of_length_pos (by omega)
    simp only [mem_cons, forall_eq_or_imp] at hvalid hfresh
    rw [map_cons, nodup_cons] at hnodup
    rw [map_cons, flatMap_cons, append_assoc] at hbs ⊢
    have hentry := (hread hbs).mpr rfl
    simp only [encodeEntry, length_append] at hbs
    refine ⟨enc s, _, hentry, hfresh.1, proj s, _, ⟨?_, rfl⟩, ss.map proj, rest, ?_, rfl, rfl⟩
    · exact (hone (by omega)).mpr ⟨s, ⟨hvalid.1, rfl⟩, rfl⟩
    refine (ih ?_).mpr
      ⟨ss, rfl, Nat.succ.inj hlen, hvalid.2, hnodup.2, ?_, rfl⟩
    · rw [length_append]
      omega
    intro s' hs' hmem
    rcases mem_cons.mp hmem with heq | hmem
    · exact hnodup.1 (heq ▸ mem_map_of_mem hs')
    · exact hfresh.2 s' hs' hmem

theorem decodeSchemaIndex_ok {S : Type} {schemas : List S} {seen seen' : Nat} {s : S} :
    decodeSchemaIndex schemas seen bs = .ok ((s, seen'), rest) ↔
      ∃ i, i < 2 ^ 64 ∧ schemas[i]? = some s ∧ i ≤ seen ∧ (i = seen → seen + 1 < 2 ^ 64) ∧
        seen' = (if i = seen then seen + 1 else seen) ∧ bs = encodeLen i ++ rest := by
  simp only [decodeSchemaIndex, bind_ok, decodeVarint_ok, ofOption_ok,
    ensure_ok, exists_ensure, pure_ok, Prod.mk.injEq]
  constructor
  · rintro ⟨id, mid, rfl, s', mid', ⟨hs, rfl⟩, hle, hnext, ⟨rfl, rfl⟩, rfl⟩
    exact ⟨id.toNat, id.toNat_lt, hs, hle, hnext, rfl, by rw [encodeLen, UInt64.ofNat_toNat]⟩
  rintro ⟨i, hi, hs, hle, hnext, rfl, rfl⟩
  have hid : (UInt64.ofNat i).toNat = i := UInt64.toNat_ofNat_of_lt' hi
  exact ⟨UInt64.ofNat i, rest, rfl, s, rest, ⟨by rwa [hid], rfl⟩, by rwa [hid], by rwa [hid],
    ⟨rfl, by rw [hid]⟩, rfl⟩

namespace LawfulSchemaVarLen

variable {T : Type} [SchemaVarLenEncoding T] [LawfulSchemaVarLen T]

def Storable (v : T) : Prop := Valid v ∧ SchemaValid (schemaOf v)

/-- A schema table as the decoder leaves it: valid schemas, no two with the same bytes. -/
structure TableOk (schemas : List (Schema T)) : Prop where
  valid : ∀ s ∈ schemas, SchemaValid s
  nodup : (schemas.map encodeSchema).Nodup
  short : ∀ s ∈ schemas, (encodeSchema s).length < 2 ^ 64
  count : schemas.length < 2 ^ 64

theorem TableOk.getElem?_iff {schemas : List (Schema T)} (h : TableOk schemas) {i : Nat}
    {v : T} (hv : SchemaValid (schemaOf v)) :
    (schemas.map encodeSchema)[i]? = some (key v) ↔ schemas[i]? = some (schemaOf v) := by
  rw [getElem?_map, Option.map_eq_some_iff]
  constructor
  · rintro ⟨s, hs, heq⟩
    have hmem := mem_of_getElem? hs
    rw [hs, encodeSchema_injective (h.valid s hmem) hv (h.short s hmem) heq]
  · intro hs
    exact ⟨_, hs, rfl⟩

/-- The tagged values that follow `seen` known schemas: first use in order, each value behind the
number of its schema. -/
theorem decodeTaggedValues_ok {schemas : List (Schema T)} (htable : TableOk schemas)
    {n seen seen' : Nat} (hseen : seen ≤ schemas.length)
    (hbs : bs.length < 2 ^ 64) {vs : List T} :
    decodeTaggedValues schemas decodeValueWithSchema n seen bs = .ok ((vs, seen'), rest) ↔
      vs.length = n ∧ (∀ v ∈ vs, Storable v) ∧ seen' ≤ schemas.length ∧
        firstSeen ((schemas.map encodeSchema).take seen) (vs.map key) =
          (schemas.map encodeSchema).take seen' ∧
        bs = vs.flatMap (encodeTagged (schemas.map encodeSchema)) ++ rest := by
  have hlen : (schemas.map encodeSchema).length = schemas.length := length_map ..
  have hcount := htable.count
  induction n generalizing seen bs vs with
  | zero =>
    simp only [decodeTaggedValues, pure_ok, Prod.mk.injEq, length_eq_zero_iff]
    constructor
    · rintro ⟨⟨rfl, rfl⟩, rfl⟩
      exact ⟨rfl, by simp, hseen, rfl, rfl⟩
    rintro ⟨rfl, -, hle, htake, rfl⟩
    have := congrArg length htake
    simp only [map_nil, firstSeen_nil, length_take, hlen] at this
    exact ⟨⟨rfl, by omega⟩, rfl⟩
  | succ n ih =>
    simp only [decodeTaggedValues, bind_ok, pure_ok, Prod.exists, Prod.mk.injEq]
    constructor
    · rintro ⟨s, seen1, mid, hindex, v, mid', hvalue, vs', seen2, mid'', hrest, ⟨rfl, rfl⟩, rfl⟩
      obtain ⟨i, hi, hs, hle, hnext, rfl, rfl⟩ := decodeSchemaIndex_ok.mp hindex
      rw [length_append] at hbs
      have hmem := mem_of_getElem? hs
      obtain ⟨⟨hv, rfl⟩, rfl⟩ :=
        (decodeValueWithSchema_ok (by omega) (htable.valid s hmem)).mp hvalue
      have hvalid := htable.valid _ hmem
      have hkey := (htable.getElem?_iff hvalid).mpr hs
      have hlt : i < schemas.length := (List.getElem?_eq_some_iff.mp hs).1
      rw [length_append] at hbs
      obtain ⟨rfl, hvs, hle', htake, rfl⟩ :=
        (ih (by split <;> omega) (by omega)).mp hrest
      refine ⟨rfl, ?_, hle', ?_, ?_⟩
      · simpa using ⟨⟨hv, hvalid⟩, hvs⟩
      · rw [map_cons, firstSeen_cons, intern_take htable.nodup hkey hle, htake]
      · rw [flatMap_cons, encodeTagged, numberOf_of_getElem? htable.nodup hkey]
        simp
    rintro ⟨hn, hvs, hle', htake, rfl⟩
    obtain ⟨v, vs, rfl⟩ : ∃ v vs', vs = v :: vs' :=
      exists_cons_of_length_pos (by omega)
    simp only [mem_cons, forall_eq_or_imp] at hvs
    obtain ⟨⟨hv, hvalid⟩, hvs⟩ := hvs
    rw [map_cons, firstSeen_cons] at htake
    have hext : intern ((schemas.map encodeSchema).take seen) (key v) <+:
        schemas.map encodeSchema :=
      (htake ▸ prefix_firstSeen _ _).trans ( take_prefix _ _)
    obtain ⟨i, hle, hkey⟩ := exists_getElem?_of_intern (by omega) hext
    have hs := (htable.getElem?_iff hvalid).mp hkey
    have hlt : i < schemas.length := (List.getElem?_eq_some_iff.mp hs).1
    rw [intern_take htable.nodup hkey hle] at htake
    rw [flatMap_cons, encodeTagged, numberOf_of_getElem? htable.nodup hkey] at hbs ⊢
    simp only [append_assoc, length_append] at hbs ⊢
    refine ⟨schemaOf v, _, _, decodeSchemaIndex_ok.mpr ⟨i, by omega, hs, hle, by omega, rfl, rfl⟩,
      v, _, (decodeValueWithSchema_ok ?_ hvalid).mpr ⟨⟨hv, rfl⟩, rfl⟩, vs, seen', rest, ?_,
      ⟨rfl, rfl⟩, rfl⟩
    · simp only [length_append]
      omega
    · refine (ih (by split <;> omega) ?_).mpr ⟨Nat.succ.inj hn, hvs, hle', htake, rfl⟩
      rw [length_append]
      omega

theorem encodeLen_length_pos (n : Nat) : 0 < (encodeLen n).length := encodeVarint_length_pos _

theorem encodeLen_length_le (n : Nat) : (encodeLen n).length ≤ 10 := by
  rw [encodeLen, encodeVarint_length]
  exact varintLen_le (lt_trans (UInt64.toNat_lt _) (by decide))

theorem encodeEntry_length_pos (b : Bytes) : 1 ≤ (encodeEntry b).length := by
  have := encodeLen_length_pos b.length
  rw [encodeEntry, length_append]
  omega

theorem encodeTagged_length_pos (table : List Bytes) (v : T) :
    1 ≤ (encodeTagged table v).length := by
  have := encodeLen_length_pos (numberOf table (key v))
  rw [encodeTagged, length_append]
  omega

theorem length_le_flatMap_entry {table : List Bytes} {b : Bytes} (h : b ∈ table) :
    b.length ≤ (table.flatMap encodeEntry).length := by
  have := length_le_flatMap encodeEntry h
  rw [encodeEntry, length_append] at this
  omega

theorem exists_schemas {table : List Bytes}
    (h : ∀ b ∈ table, ∃ s : Schema T, SchemaValid s ∧ encodeSchema s = b) :
    ∃ ss : List (Schema T), (∀ s ∈ ss, SchemaValid s) ∧ ss.map encodeSchema = table := by
  induction table with
  | nil => exact ⟨[], by simp, rfl⟩
  | cons b table ih =>
    simp only [mem_cons, forall_eq_or_imp] at h
    obtain ⟨⟨s, hs, rfl⟩, hrest⟩ := h
    obtain ⟨ss, hss, rfl⟩ := ih hrest
    exact ⟨s :: ss, by simpa using ⟨hs, hss⟩, rfl⟩

variable {vs : List T}

theorem exists_table (hvs : ∀ v ∈ vs, Storable v) :
    ∃ ss : List (Schema T), (∀ s ∈ ss, SchemaValid s) ∧
      ss.map encodeSchema = firstSeen [] (vs.map key) := by
  refine exists_schemas fun b hb => ?_
  rcases mem_firstSeen_iff.mp hb with hb | hb
  · cases hb
  · obtain ⟨v, hv, rfl⟩ := mem_map.mp hb
    exact ⟨schemaOf v, (hvs v hv).2, rfl⟩

theorem decodeSchemaEntries_table {P : Type} {readBuf : Reader Bytes}
    {decodeOne : Bytes → Except IoError P} {proj : Schema T → P} {N n : Nat} (hN : N < 2 ^ 64)
    (hread : ReadsEntry readBuf N)
    (hone : ∀ {b : Bytes} {p : P}, b.length < 2 ^ 64 →
      (decodeOne b = .ok p ↔ ∃ s, (SchemaValid s ∧ b = encodeSchema s) ∧ proj s = p))
    (hbs : bs.length ≤ N) {ps : List P} :
    decodeSchemaEntries readBuf decodeOne n [] bs = .ok (ps, rest) ↔
      ∃ ss : List (Schema T), ss.map proj = ps ∧ ss.length = n ∧ TableOk ss ∧
        bs = (ss.map encodeSchema).flatMap encodeEntry ++ rest := by
  rw [decodeSchemaEntries_ok hN hread hone hbs]
  constructor
  · rintro ⟨ss, rfl, rfl, hvalid, hnodup, -, rfl⟩
    rw [length_append] at hbs
    have hcount := length_flatMap_ge encodeEntry_length_pos (ss.map encodeSchema)
    rw [length_map] at hcount
    refine ⟨ss, rfl, rfl, ⟨hvalid, hnodup, fun s hs => ?_, by omega⟩, rfl⟩
    have := length_le_flatMap_entry (mem_map_of_mem (f := encodeSchema) hs)
    omega
  · rintro ⟨ss, rfl, rfl, ⟨hvalid, hnodup, -, -⟩, rfl⟩
    exact ⟨ss, rfl, rfl, hvalid, hnodup, by simp, rfl⟩

theorem decodeWhole_entries {N n : Nat} (hN : N < 2 ^ 64) (hbs : bs.length ≤ N)
    {ss : List (Schema T)} :
    decodeSchemaEntries (readSchemaBuf N)
        (decodeWhole (decodeSchema (T := T)) schemaBufferTrailing) n [] bs =
          .ok (ss, rest) ↔
      ss.length = n ∧ TableOk ss ∧
        bs = (ss.map encodeSchema).flatMap encodeEntry ++ rest := by
  have hone {b : Bytes} {p : Schema T} (hb : b.length < 2 ^ 64) :
      decodeWhole decodeSchema schemaBufferTrailing b = .ok p ↔
        ∃ s, (SchemaValid s ∧ b = encodeSchema s) ∧ id s = p := by
    simp [decodeWhole_schema _ hb]
  rw [decodeSchemaEntries_table hN (readSchemaBuf_readsEntry hN) hone hbs]
  simp [map_id]

theorem decodeValues_ok {buf : Bytes} {count : Nat} (hcount : count ≠ 0)
    (hbuf : buf.length < 2 ^ 64) {vs : List T} :
    decodeValues buf count = .ok vs ↔
      vs.length = count ∧ (∀ v ∈ vs, Storable v) ∧ buf = encodeValues vs := by
  rw [decodeValues, value_ok]
  simp only [decodeValuesFrom, ensureMinimumEncodedItems, bind_ok, decodeLen_ok, ensure_ok,
    exists_ensure, ensureDecodedItemsFit_ok, atEnd_ok, pure_ok, Prod.exists]
  constructor
  · rintro ⟨rest, n, mid, ⟨hn, rfl⟩, hrange, -, ss, mid', hentries, -, vs', seen, mid'', hvalues, rfl,
      u, mid3, ⟨rfl, rfl⟩, rfl, rfl⟩
    rw [length_append] at hbuf
    obtain ⟨rfl, htable, rfl⟩ :=
      (decodeWhole_entries (by rwa [length_append]) (by rw [length_append]; omega)).mp
        hentries
    rw [length_append] at hbuf
    obtain ⟨hlen, hvs, -, htake, rfl⟩ :=
      (decodeTaggedValues_ok htable (Nat.zero_le _) (by omega)).mp hvalues
    rw [take_zero, take_of_length_le (by simp)] at htake
    refine ⟨hlen, hvs, ?_⟩
    rw [encodeValues, writeSchemaHeader, htake, length_map, append_nil, append_assoc]
  rintro ⟨rfl, hvs, rfl⟩
  obtain ⟨ss, hvalid, htable⟩ := exists_table hvs
  have hnodup : (ss.map encodeSchema).Nodup := htable ▸ nodup_firstSeen nodup_nil _
  have hle : ss.length ≤ vs.length := by
    have := length_firstSeen_le [] (vs.map key)
    rw [← htable, length_map, length_map] at this
    simpa using this
  have hpos : 1 ≤ ss.length := by
    obtain ⟨v, vs', rfl⟩ := exists_cons_of_length_pos (Nat.pos_of_ne_zero hcount)
    have hmem : key v ∈ ss.map encodeSchema := htable ▸ mem_firstSeen_iff.mpr (by simp)
    have := length_pos_of_mem hmem
    rwa [length_map] at this
  have hentries := length_flatMap_ge encodeEntry_length_pos (ss.map encodeSchema)
  have hvalues := length_flatMap_ge (encodeTagged_length_pos (ss.map encodeSchema)) vs
  rw [encodeValues, writeSchemaHeader, ← htable, length_map, append_assoc] at hbuf ⊢
  simp only [length_append] at hbuf
  have hok : TableOk ss := by
    refine ⟨hvalid, hnodup, fun s hs => ?_, by omega⟩
    have := length_le_flatMap_entry (mem_map_of_mem (f := encodeSchema) hs)
    omega
  have htagged : vs.flatMap (encodeTagged (ss.map encodeSchema)) =
      vs.flatMap (encodeTagged (ss.map encodeSchema)) ++ [] := (append_nil _).symm
  refine ⟨[], ss.length, _, ⟨by omega, rfl⟩, by omega, ⟨by omega, ?_⟩, ss, _,
    (decodeWhole_entries (by simp only [length_append]; omega) ?_).mpr ⟨rfl, hok, rfl⟩,
    ⟨by omega, by omega⟩, vs, ss.length, [],
    (decodeTaggedValues_ok hok (Nat.zero_le _) (by omega)).mpr
      ⟨rfl, hvs, le_rfl, ?_, htagged⟩, rfl, (), [], ⟨rfl, rfl⟩, rfl, rfl⟩
  · simp only [length_append]
    omega
  · simp only [length_append]
    omega
  · rw [take_zero, take_of_length_le (by simp), htable]

end LawfulSchemaVarLen

namespace SchemaVarLenCodec

variable {T : Type} [SchemaVarLenEncoding T] {c c' : SchemaVarLenCodec T}

theorem encodeValue_ok {v : T} :
    c.encodeValue v = .ok c' ↔ ∃ b, encodeSchemaFromValue v = .ok b ∧
      ((∃ i s r, c.existingSchemaId b = some i ∧ c.schemas[i]? = some s ∧
          encodeValueWithSchema v s = .ok r ∧ c.appendValue i r = .ok c') ∨
        (c.existingSchemaId b = none ∧ c.schemas.length < 2 ^ 32 ∧
          ∃ s r, decodeWhole (decodeSchema (T := T)) schemaBufferTrailing b = .ok s ∧
            encodeValueWithSchema v s = .ok r ∧
            appendValue { c with schemas := c.schemas ++ [s],
                                 schemaBytes := c.schemaBytes ++ [b],
                                 schemaIndex := (b, c.schemas.length) :: c.schemaIndex }
              c.schemas.length r = .ok c')) := by
  rw [encodeValue, except_bind_ok]
  refine exists_congr fun b => and_congr_right fun hb => ?_
  cases hid : c.existingSchemaId b with
  | some i =>
    cases hs : c.schemas[i]? with
    | none => simp [hs, throw, throwThe, MonadExceptOf.throw]
    | some s => simp [hs, except_bind_ok]
  | none =>
    by_cases hlen : c.schemas.length < 2 ^ 32
    · have hlen' : c.schemas.length < 4294967296 := hlen
      rw [if_neg (Nat.not_le.mpr hlen)]
      simp [except_bind_ok, hlen']
    · have hlen' : ¬ c.schemas.length < 4294967296 := hlen
      rw [if_pos (Nat.not_lt.mp hlen)]
      simp [throw, throwThe, MonadExceptOf.throw, bind, Except.bind, hlen']

theorem appendValue_ok {i : Nat} {r : Bytes} :
    c.appendValue i r = .ok c' ↔ varintLen (UInt64.ofNat i) + r.length < 2 ^ 64 ∧
      c' = { c with lastSchemaId := some i, values := c.values ++ (encodeLen i ++ r) } := by
  unfold appendValue
  split
  · rename_i h
    simp only [reduceCtorEq, false_iff]
    omega
  · rename_i h
    rw [Except.ok.injEq, eq_comm]
    exact (and_iff_right (by omega)).symm

/-- The hash map is the inverse of the schema table. -/
structure Indexed (c : SchemaVarLenCodec T) : Prop where
  length : c.schemas.length = c.schemaBytes.length
  nodup : c.schemaBytes.Nodup
  lookup : ∀ b i, c.schemaIndex.lookup b = some i ↔ c.schemaBytes[i]? = some b

theorem empty_indexed : (empty : SchemaVarLenCodec T).Indexed :=
  ⟨rfl, nodup_nil, by simp [empty]⟩

variable {c : SchemaVarLenCodec T}

theorem Indexed.existing_some (h : c.Indexed) {b : Bytes} {i : Nat}
    (hid : c.existingSchemaId b = some i) : c.schemaBytes[i]? = some b := by
  unfold existingSchemaId at hid
  split at hid
  · split at hid
    · rename_i hlast
      obtain rfl := Option.some.inj hid
      exact hlast
    · exact (h.lookup b i).mp hid
  · exact (h.lookup b i).mp hid

theorem Indexed.existing_none (h : c.Indexed) {b : Bytes}
    (hid : c.existingSchemaId b = none) : b ∉ c.schemaBytes := by
  intro hmem
  obtain ⟨i, hi⟩ := mem_iff_getElem?.mp hmem
  have hlook := (h.lookup b i).mpr hi
  unfold existingSchemaId at hid
  split at hid
  · split at hid
    · cases hid
    · rw [hlook] at hid
      cases hid
  · rw [hlook] at hid
    cases hid

theorem encodeValue_indexed {v : T} (h : c.Indexed) (hstep : c.encodeValue v = .ok c') :
    c'.Indexed ∧ (c.schemas.length ≤ 2 ^ 32 → c'.schemas.length ≤ 2 ^ 32) ∧
      ∃ b, encodeSchemaFromValue v = .ok b ∧ c'.schemaBytes = intern c.schemaBytes b := by
  obtain ⟨b, hb, ⟨i, s, r, hid, -, -, happend⟩ | ⟨hid, hlt, s, r, -, -, happend⟩⟩ :=
    encodeValue_ok.mp hstep
  · obtain ⟨-, rfl⟩ := appendValue_ok.mp happend
    have hmem := mem_of_getElem? (h.existing_some hid)
    exact ⟨⟨h.length, h.nodup, h.lookup⟩, id, b, hb, (intern_of_mem hmem).symm⟩
  obtain ⟨-, rfl⟩ := appendValue_ok.mp happend
  have hnot := h.existing_none hid
  -- schemas are numbered with 32 bits
  have hcount : (c.schemas ++ [s]).length ≤ 2 ^ 32 := by
    rw [length_append]
    exact hlt
  refine ⟨⟨?_, ?_, ?_⟩, fun _ => hcount, b, hb, (intern_of_not_mem hnot).symm⟩
  · simp [h.length]
  · rw [← intern_of_not_mem hnot]
    exact nodup_intern h.nodup b
  intro b' i
  rw [h.length, getElem?_append, getElem?_singleton]
  by_cases heq : b' = b
  · subst heq
    have hout : c.schemaBytes[i]? ≠ some b' := fun hi => hnot (mem_of_getElem? hi)
    rw [lookup_cons_self]
    by_cases hi : i < c.schemaBytes.length
    · rw [if_pos hi]
      simp only [Option.some.injEq, hout, iff_false]
      omega
    · rw [if_neg hi]
      simp only [Option.some.injEq, ite_eq_left_iff, reduceCtorEq, imp_false, not_not]
      omega
  have hne : (b' == b) = false := by simpa using heq
  rw [lookup_cons, hne]
  rw [h.lookup b' i]
  by_cases hi : i < c.schemaBytes.length
  · rw [if_pos hi]
  · rw [if_neg hi, getElem?_eq_none (Nat.not_lt.mp hi)]
    simp [Ne.symm heq]

open LawfulSchemaVarLen

variable [LawfulSchemaVarLen T]

structure Tracks (c : SchemaVarLenCodec T) (vs : List T) : Prop where
  indexed : c.Indexed
  table : c.schemaBytes = firstSeen [] (vs.map key)
  schemas : c.schemas.map encodeSchema = c.schemaBytes
  valid : ∀ s ∈ c.schemas, SchemaValid s
  values : c.values = vs.flatMap (encodeTagged c.schemaBytes)
  stored : ∀ v ∈ vs, Storable v

theorem empty_tracks : (empty : SchemaVarLenCodec T).Tracks [] :=
  ⟨empty_indexed, rfl, rfl, by simp [empty], rfl, by simp⟩

theorem Tracks.intoBytes (h : c.Tracks vs) : c.intoBytes = encodeValues vs := by
  rw [SchemaVarLenCodec.intoBytes, h.values, h.table, encodeValues]

theorem flatMap_encodeTagged {table table' : List Bytes} {vs : List T} (hext : table <+: table')
    (hmem : ∀ v ∈ vs, key v ∈ table) :
    vs.flatMap (encodeTagged table) = vs.flatMap (encodeTagged table') := by
  refine flatMap_congr fun v hv => ?_
  rw [encodeTagged, encodeTagged, numberOf_of_extends hext (hmem v hv)]

theorem Tracks.key_mem (h : c.Tracks vs) {v : T} (hv : v ∈ vs) : key v ∈ c.schemaBytes := by
  rw [h.table]
  exact mem_firstSeen_iff.mpr (.inr (mem_map_of_mem hv))

theorem Tracks.schema_of_key (h : c.Tracks vs) {v : T}
    (hshort : (key v).length < 2 ^ 64) (hv : SchemaValid (schemaOf v)) {i : Nat}
    (hi : c.schemaBytes[i]? = some (key v)) : c.schemas[i]? = some (schemaOf v) := by
  rw [← h.schemas, getElem?_map, Option.map_eq_some_iff] at hi
  obtain ⟨s, hs, heq⟩ := hi
  have hmem := mem_of_getElem? hs
  rw [hs, encodeSchema_injective (h.valid s hmem) hv (by rwa [heq]) heq]

theorem forall_mem_concat {α : Type} {P : α → Prop} {as : List α} {a : α}
    (has : ∀ x ∈ as, P x) (ha : P a) : ∀ x ∈ as ++ [a], P x :=
  forall_mem_append.mpr ⟨has, forall_mem_singleton.mpr ha⟩

theorem Tracks.step {v : T} (h : c.Tracks vs) (hshort : (key v).length < 2 ^ 64)
    (hstep : c.encodeValue v = .ok c') : c'.Tracks (vs ++ [v]) := by
  obtain ⟨hindexed, -, b, hb, htable⟩ := encodeValue_indexed h.indexed hstep
  obtain ⟨hvalid, rfl⟩ := encodeSchemaFromValue_ok.mp hb
  have hnewTable : c'.schemaBytes = firstSeen [] ((vs ++ [v]).map key) := by
    rw [htable, h.table, map_append, firstSeen, firstSeen, foldl_append]
    rfl
  have hext : c.schemaBytes <+: c'.schemaBytes := htable ▸ prefix_intern _ _
  have hold := flatMap_encodeTagged hext fun w hw => h.key_mem hw
  obtain ⟨b, hb', hcases⟩ := encodeValue_ok.mp hstep
  obtain rfl : b = encodeSchema (schemaOf v) := Except.ok.inj (hb'.symm.trans hb)
  rcases hcases with ⟨i, s, r, hid, hs, hr, happend⟩ | ⟨hid, -, s, r, hs, hr, happend⟩
  · have hkey := h.indexed.existing_some hid
    obtain rfl : s = schemaOf v :=
      Option.some.inj (hs.symm.trans (h.schema_of_key hshort hvalid hkey))
    obtain ⟨hv, rfl⟩ := encodeValueWithSchema_ok.mp hr
    obtain ⟨-, rfl⟩ := appendValue_ok.mp happend
    refine ⟨hindexed, hnewTable, h.schemas, h.valid, ?_, ?_⟩
    · have hnum := numberOf_of_getElem? h.indexed.nodup hkey
      simp only [flatMap_append, flatMap_cons, flatMap_nil, append_nil, h.values]
      rw [encodeTagged, key, hnum]
    · exact forall_mem_concat h.stored ⟨hv, hvalid⟩
  obtain rfl : schemaOf v = s :=
    Except.ok.inj (((decodeWhole_schema _ hshort).mpr ⟨hvalid, rfl⟩).symm.trans hs)
  obtain ⟨hv, rfl⟩ := encodeValueWithSchema_ok.mp hr
  obtain ⟨-, rfl⟩ := appendValue_ok.mp happend
  refine ⟨hindexed, hnewTable, ?_, ?_, ?_, ?_⟩
  · simp [h.schemas]
  · exact forall_mem_concat h.valid hvalid
  · have hnum : numberOf (c.schemaBytes ++ [encodeSchema (schemaOf v)]) (key v) =
        c.schemas.length := by
      refine numberOf_of_getElem? hindexed.nodup ?_
      rw [h.indexed.length]
      exact getElem?_concat_length
    simp only [flatMap_append, flatMap_cons, flatMap_nil, append_nil]
    rw [← hold, h.values, encodeTagged, hnum]
  · exact forall_mem_concat h.stored ⟨hv, hvalid⟩

theorem Tracks.total {v : T} (h : c.Tracks vs) (hshort : (key v).length < 2 ^ 64) (hv : Storable v)
    (hrest : (encodeRest v).length + 10 < 2 ^ 64)
    (hroom : key v ∉ c.schemaBytes → c.schemas.length < 2 ^ 32) :
    ∃ c', c.encodeValue v = .ok c' := by
  have hb : encodeSchemaFromValue v = .ok (key v) := encodeSchemaFromValue_ok.mpr ⟨hv.2, rfl⟩
  have hr := encodeValueWithSchema_ok.mpr ⟨hv.1, rfl⟩
  have hfits : ∀ i, varintLen (UInt64.ofNat i) + (encodeRest v).length < 2 ^ 64 := fun i => by
    have : varintLen (UInt64.ofNat i) ≤ 10 :=
      varintLen_le (lt_trans (UInt64.toNat_lt _) (by decide))
    omega
  cases hid : c.existingSchemaId (key v) with
  | some i =>
    have hs := h.schema_of_key hshort hv.2 (h.indexed.existing_some hid)
    exact ⟨_, encodeValue_ok.mpr ⟨_, hb, .inl ⟨i, _, _, hid, hs, hr,
      appendValue_ok.mpr ⟨hfits i, rfl⟩⟩⟩⟩
  | none =>
    have hs := (decodeWhole_schema schemaBufferTrailing hshort).mpr ⟨hv.2, rfl⟩
    have hnew := hroom (h.indexed.existing_none hid)
    exact ⟨_, encodeValue_ok.mpr ⟨_, hb, .inr ⟨hid, hnew, _, _, hs, hr,
      appendValue_ok.mpr ⟨hfits _, rfl⟩⟩⟩⟩

theorem run_schemaBytes {vs : List T} (h : c.Indexed) (hrun : vs.foldlM encodeValue c = .ok c') :
    c'.Indexed ∧ (c.schemas.length ≤ 2 ^ 32 → c'.schemas.length ≤ 2 ^ 32) ∧
      c'.schemaBytes = firstSeen c.schemaBytes (vs.map key) := by
  induction vs generalizing c with
  | nil =>
    obtain rfl := Except.ok.inj hrun
    exact ⟨h, id, rfl⟩
  | cons v vs ih =>
    rw [foldlM_cons, except_bind_ok] at hrun
    obtain ⟨c1, hstep, hrun⟩ := hrun
    obtain ⟨hindexed, hcount, b, hb, htable⟩ := encodeValue_indexed h hstep
    obtain ⟨-, rfl⟩ := encodeSchemaFromValue_ok.mp hb
    obtain ⟨hindexed', hcount', htable'⟩ := ih hindexed hrun
    exact ⟨hindexed', hcount' ∘ hcount, by rw [htable', htable]; rfl⟩

theorem Tracks.run {vs ws : List T} (h : c.Tracks vs) (hshort : ∀ w ∈ ws, (key w).length < 2 ^ 64)
    (hrun : ws.foldlM encodeValue c = .ok c') : c'.Tracks (vs ++ ws) := by
  induction ws generalizing c vs with
  | nil =>
    obtain rfl := Except.ok.inj hrun
    rwa [append_nil]
  | cons w ws ih =>
    rw [foldlM_cons, except_bind_ok] at hrun
    obtain ⟨c1, hstep, hrun⟩ := hrun
    simp only [mem_cons, forall_eq_or_imp] at hshort
    have := ih (h.step hshort.1 hstep) hshort.2 hrun
    rwa [append_assoc] at this

theorem run_sound {vs : List T}
    (hrun : vs.foldlM encodeValue empty = .ok c) (hlen : c.intoBytes.length < 2 ^ 64) :
    (∀ v ∈ vs, Storable v) ∧ c.intoBytes = encodeValues vs := by
  obtain ⟨-, -, htable⟩ := run_schemaBytes empty_indexed hrun
  have hshort : ∀ v ∈ vs, (key v).length < 2 ^ 64 := by
    intro v hv
    have hmem : key v ∈ c.schemaBytes := by
      rw [htable]
      exact mem_firstSeen_iff.mpr (.inr (mem_map_of_mem hv))
    have := length_le_flatMap_entry hmem
    simp only [intoBytes, writeSchemaHeader, length_append] at hlen
    omega
  have htracks := empty_tracks.run hshort hrun
  exact ⟨htracks.stored, htracks.intoBytes⟩

theorem Tracks.run_total {vs ws : List T} (h : c.Tracks vs)
    (hws : ∀ w ∈ ws, Storable w ∧ (key w).length < 2 ^ 64 ∧ (encodeRest w).length + 10 < 2 ^ 64)
    (hroom : (firstSeen c.schemaBytes (ws.map key)).length ≤ 2 ^ 32) :
    ∃ c', ws.foldlM encodeValue c = .ok c' := by
  induction ws generalizing c vs with
  | nil => exact ⟨c, rfl⟩
  | cons w ws ih =>
    simp only [mem_cons, forall_eq_or_imp] at hws
    obtain ⟨⟨hw, hshort, hrest⟩, hws⟩ := hws
    rw [map_cons, firstSeen_cons] at hroom
    have hnew : key w ∉ c.schemaBytes → c.schemas.length < 2 ^ 32 := by
      intro hnot
      have hle := (prefix_firstSeen (intern c.schemaBytes (key w)) (ws.map key)).length_le
      rw [intern_of_not_mem hnot, length_append, length_singleton] at hle
      rw [intern_of_not_mem hnot] at hroom
      rw [h.indexed.length]
      omega
    obtain ⟨c1, hstep⟩ := h.total hshort hw hrest hnew
    obtain ⟨-, -, b, hb, htable⟩ := encodeValue_indexed h.indexed hstep
    obtain ⟨-, rfl⟩ := encodeSchemaFromValue_ok.mp hb
    obtain ⟨c2, hrun⟩ := ih (h.step hshort hstep) hws (by rw [htable]; exact hroom)
    exact ⟨c2, by rw [foldlM_cons, except_bind_ok]; exact ⟨c1, hstep, hrun⟩⟩

end SchemaVarLenCodec

def encodeSchemaVarlenValues {T : Type} [SchemaVarLenEncoding T] (first : T) (rest : List T) :
    Except IoError Bytes := do
  let codec ← SchemaVarLenCodec.new first
  let codec ← rest.foldlM SchemaVarLenCodec.push codec
  return codec.intoBytes

section
open LawfulSchemaVarLen
variable {T : Type} [SchemaVarLenEncoding T] [LawfulSchemaVarLen T]

theorem encodeSchemaVarlenValues_ok {first : T} {rest : List T} {out : Bytes}
    (hout : out.length + 10 < 2 ^ 64) :
    encodeSchemaVarlenValues first rest = .ok out ↔
      (∀ v ∈ first :: rest, Storable v) ∧
        (firstSeen [] ((first :: rest).map key)).length ≤ 2 ^ 32 ∧
        out = encodeValues (first :: rest) := by
  have hfold : encodeSchemaVarlenValues first rest = .ok out ↔
      ∃ c, (first :: rest).foldlM encodeValue empty = .ok c ∧
        c.intoBytes = out := by
    simp only [encodeSchemaVarlenValues, new, foldlM_cons, except_bind_ok,
      pure, Except.pure, Except.ok.injEq]
    constructor
    · rintro ⟨c1, hfirst, c2, hrest, rfl⟩
      exact ⟨c2, ⟨c1, hfirst, hrest⟩, rfl⟩
    · rintro ⟨c2, ⟨c1, hfirst, hrest⟩, rfl⟩
      exact ⟨c1, hfirst, c2, hrest, rfl⟩
  rw [hfold]
  constructor
  · rintro ⟨c, hrun, rfl⟩
    obtain ⟨hvs, hbytes⟩ := run_sound hrun (by omega)
    refine ⟨hvs, ?_, hbytes⟩
    obtain ⟨hindexed, hcount, htable⟩ :=
      run_schemaBytes empty_indexed hrun
    rw [hindexed.length, htable] at hcount
    exact hcount (Nat.zero_le _)
  rintro ⟨hvs, hroom, rfl⟩
  have hshort : ∀ w ∈ first :: rest, Storable w ∧ (key w).length < 2 ^ 64 ∧
      (encodeRest w).length + 10 < 2 ^ 64 := by
    intro w hw
    simp only [encodeValues, writeSchemaHeader, length_append] at hout
    have hmem : key w ∈ firstSeen [] ((first :: rest).map key) :=
      mem_firstSeen_iff.mpr (.inr (mem_map_of_mem hw))
    have hkey := length_le_flatMap_entry hmem
    have hrest := length_le_flatMap
      (encodeTagged (firstSeen [] ((first :: rest).map key))) hw
    rw [encodeTagged, length_append] at hrest
    exact ⟨hvs w hw, by omega, by omega⟩
  obtain ⟨c, hrun⟩ := empty_tracks.run_total hshort hroom
  have htracks := empty_tracks.run (fun w hw => (hshort w hw).2.1) hrun
  exact ⟨c, hrun, htracks.intoBytes⟩

end

end Chronoxide

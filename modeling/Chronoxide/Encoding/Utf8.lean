import Chronoxide.Encoding.Io

/-! Texts as their UTF-8 bytes. -/

namespace Chronoxide
open Codec List

def asBytes (s : String) : List UInt8 := s.toList.flatMap String.utf8EncodeChar

theorem toByteArray_asBytes (s : String) : (asBytes s).toByteArray = s.toByteArray :=
  String.utf8Encode_toList

theorem asBytes_injective : Function.Injective asBytes := by
  intro s t h
  rw [← String.toByteArray_inj, ← toByteArray_asBytes, ← toByteArray_asBytes, h]

def startsWith (value start : String) : Bool := start.toList.isPrefixOf value.toList

def stripPrefix (value start : String) : Option String :=
  if startsWith value start then some (String.ofList (value.toList.drop start.toList.length))
  else none

def stripSuffix (value ending : String) : Option String :=
  if ending.toList.isSuffixOf value.toList then
    some (String.ofList (value.toList.take (value.toList.length - ending.toList.length)))
  else none

theorem stripPrefix_append (start rest : List Char) :
    stripPrefix (String.ofList (start ++ rest)) (String.ofList start) = some (String.ofList rest) := by
  have hstarts : startsWith (String.ofList (start ++ rest)) (String.ofList start) = true := by
    rw [startsWith, String.toList_ofList, String.toList_ofList, isPrefixOf_iff_prefix]
    exact prefix_append start rest
  rw [stripPrefix, if_pos hstarts, String.toList_ofList, String.toList_ofList, drop_left]

theorem stripSuffix_append (rest ending : List Char) :
    stripSuffix (String.ofList (rest ++ ending)) (String.ofList ending) = some (String.ofList rest) := by
  have hends : (String.ofList ending).toList.isSuffixOf (String.ofList (rest ++ ending)).toList = true := by
    rw [String.toList_ofList, String.toList_ofList, isSuffixOf_iff_suffix]
    exact suffix_append rest ending
  rw [stripSuffix, if_pos hends, String.toList_ofList, String.toList_ofList, length_append,
    Nat.add_sub_cancel, take_left]

end Chronoxide

import GoYcsb.Lib.Base64
import GoYcsb.Lib.Json

/-!
This module contains what a program sees of a package that encodes maps of byte strings, such as a codec for msgpack. A
map that is `nil` has an encoding of its own.
-/

/--
An encoding that gives every map other than `nil` back, the order of its entries apart.
-/
structure Msgpack where
  encode : Option (GoMap Bytes Bytes) → Except Bytes Bytes
  decode : Bytes → Except Bytes (Option (GoMap Bytes Bytes))
  encode_decode : ∀ m, ∃ data m',
    encode (some m) = .ok data ∧ decode data = .ok (some m') ∧ ∀ k, m'.lookup k = m.lookup k

namespace Msgpack

def quoted : Msgpack where
  encode m :=
    match m with
    | none => .ok [192]
    | some m => .ok (Json.quoteMap m)
  decode data :=
    match data with
    | [] => .error (Bytes.ofAscii "EOF")
    | c :: data => if c = 192 then .ok none else .ok (some (Json.readMap (c :: data)))
  encode_decode := fun m => ⟨Json.quoteMap m, Json.readMap (Json.quoteMap m), rfl, rfl, Json.readMap_quoteMap m⟩

end Msgpack

/--
An encoding that gives `nil` back as well, such as `encoding/json` with its `null`.
-/
structure MapJson extends Msgpack where
  encode_nil : ∃ data, encode none = .ok data ∧ decode data = .ok none

namespace MapJson

theorem exists_decode_encode (json : MapJson) (m : Option (GoMap Bytes Bytes))
    : ∃ data m',
        json.encode m = .ok data ∧ json.decode data = .ok m' ∧ ∀ k, (m'.getD ∅).lookup k = (m.getD ∅).lookup k := by
  cases m with
  | none =>
    rcases json.encode_nil with ⟨data, hencode, hdecode⟩
    exact ⟨data, none, hencode, hdecode, fun _ => rfl⟩
  | some m =>
    rcases json.encode_decode m with ⟨data, m', hencode, hdecode, hlookup⟩
    exact ⟨data, some m', hencode, hdecode, hlookup⟩

def base64 : MapJson where
  encode m :=
    match m with
    | none => .ok (Bytes.ofAscii "null")
    | some m => .ok (Json.quoteMap (m.mapValues Base64.encode))
  decode data :=
    match data with
    | [] => .error (Bytes.ofAscii "unexpected end of JSON input")
    | c :: data => if c = 110 then .ok none else .ok (some ((Json.readMap (c :: data)).mapValues Base64.decode))
  encode_decode := fun m => by
    refine ⟨Json.quoteMap (m.mapValues Base64.encode), _, rfl, rfl, ?_⟩
    intro k
    rw [GoMap.lookup_mapValues]
    refine (congrArg (Option.map Base64.decode) (Json.readMap_quoteMap _ k)).trans ?_
    rw [GoMap.lookup_mapValues, Option.map_map]
    cases m.lookup k with
    | none => rfl
    | some v => exact congrArg some (Base64.decode_of_encode v)
  encode_nil := ⟨Bytes.ofAscii "null", rfl, rfl⟩

end MapJson

import GoYcsb.Lib.Bytes
import GoYcsb.Lib.GoMap

/-!
This module contains what a program sees of a package that encodes maps of byte strings, such as `encoding/json`: the
encoding itself is a parameter that is known to round trip.
-/

structure Json where
  marshal : GoMap Bytes Bytes → Except Bytes Bytes
  decode : Bytes → Except Bytes (GoMap Bytes Bytes)
  marshal_decode : ∀ m, ∃ data m', marshal m = .ok data ∧ decode data = .ok m' ∧ ∀ k, m'.lookup k = m.lookup k

namespace Json

-- The second argument of `json.Unmarshal`: the address of a map or the map itself.
inductive Target where
  | pointer (old : GoMap Bytes Bytes)
  | value (old : GoMap Bytes Bytes)

def unmarshal (json : Json) (data : Bytes) (v : Target) : Option Bytes × GoMap Bytes Bytes :=
  match json.decode data, v with
  | .error err, .pointer old => (some err, old)
  | .error err, .value old => (some err, old)
  | .ok m, .pointer old => (none, old.merge m)
  | .ok _, .value old => (some (Bytes.ofAscii "json: Unmarshal(non-pointer map[string][]uint8)"), old)

def encode (json : Json) (m : GoMap Bytes Bytes) : Bytes :=
  match json.marshal m with
  | .ok data => data
  | .error _ => []

theorem marshal_eq (json : Json) (m : GoMap Bytes Bytes) : json.marshal m = .ok (json.encode m) := by
  rcases json.marshal_decode m with ⟨data, m', hmarshal, _⟩
  rw [encode, hmarshal]

theorem exists_decode_encode (json : Json) (m : GoMap Bytes Bytes)
    : ∃ m', json.decode (json.encode m) = .ok m' ∧ ∀ k, m'.lookup k = m.lookup k := by
  rcases json.marshal_decode m with ⟨data, m', hmarshal, hdecode, hlookup⟩
  rw [marshal_eq, Except.ok.injEq] at hmarshal
  rw [hmarshal]
  exact ⟨m', hdecode, hlookup⟩

theorem unmarshal_value (json : Json) (data : Bytes) (old : GoMap Bytes Bytes)
    : (json.unmarshal data (.value old)).2 = old := by
  unfold unmarshal
  split
  . contradiction
  . next heq =>
    cases heq
    rfl
  . contradiction
  . next heq =>
    cases heq
    rfl

theorem unmarshal_pointer {json : Json} {data : Bytes} {m : GoMap Bytes Bytes} (h : json.decode data = .ok m)
    (old : GoMap Bytes Bytes)
    : json.unmarshal data (.pointer old) = (none, old.merge m) := by
  unfold unmarshal
  rw [h]

section

/-!
An encoding of this kind. The strings stand in quotes, a backslash comes before the bytes that would end them.
-/

def escape (s : Bytes) : Bytes := s.flatMap (fun c => if c = 34 ∨ c = 92 then [92, c] else [c])

theorem length_le_escape (s : Bytes) : s.length ≤ (escape s).length := by
  induction s with
  | nil => rfl
  | cons c s ih =>
    have hcons : escape (c :: s) = (if c = 34 ∨ c = 92 then [92, c] else [c]) ++ escape s := rfl
    rw [hcons, List.length_append, List.length_cons]
    split
    . simp only [List.length_cons, List.length_nil]
      omega
    . simp only [List.length_cons, List.length_nil]
      omega

def quote (s : Bytes) : Bytes := 34 :: escape s ++ [34]

def quoteEntry (k v : Bytes) : Bytes := quote k ++ [58] ++ quote v ++ [44]

def quoteMap (m : GoMap Bytes Bytes) : Bytes :=
  [123] ++ m.entries.flatMap (fun entry => quoteEntry entry.1 entry.2) ++ [125]

inductive Scan where
  | outside
  | inside (acc : Bytes)
  | escaped (acc : Bytes)

def strings (scan : Scan) (data : Bytes) : List Bytes :=
  match data with
  | [] => []
  | c :: data =>
    match scan with
    | .outside => if c = 34 then strings (.inside []) data else strings .outside data
    | .inside acc =>
      if c = 34 then
        acc :: strings .outside data
      else if c = 92 then
        strings (.escaped acc) data
      else
        strings (.inside (acc ++ [c])) data
    | .escaped acc => strings (.inside (acc ++ [c])) data

def pairs (l : List Bytes) : List (Bytes × Bytes) :=
  match l with
  | k :: v :: l => (k, v) :: pairs l
  | _ => []

def readMap (data : Bytes) : GoMap Bytes Bytes := GoMap.insertAll ∅ (pairs (strings .outside data))

theorem strings_escape (acc s data : Bytes)
    : strings (.inside acc) (escape s ++ 34 :: data) = (acc ++ s) :: strings .outside data := by
  induction s generalizing acc with
  | nil => simp [escape, strings]
  | cons c s ih =>
    have hcons : escape (c :: s) = (if c = 34 ∨ c = 92 then [92, c] else [c]) ++ escape s := rfl
    rw [hcons]
    split
    . simp [strings, ih]
    . next hplain =>
      rw [not_or] at hplain
      simp [strings, hplain, ih]

theorem strings_quote (s data : Bytes) : strings .outside (quote s ++ data) = s :: strings .outside data := by
  simp [quote, strings, strings_escape]

theorem strings_quoteEntries (entries : List (Sigma (fun _ : Bytes => Bytes)))
    : pairs (strings .outside (entries.flatMap (fun entry => quoteEntry entry.1 entry.2) ++ [125]))
        =
      entries.map (fun entry => (entry.1, entry.2)) := by
  induction entries with
  | nil => simp [strings, pairs]
  | cons entry entries ih =>
    rw [List.flatMap_cons, quoteEntry]
    simp only [List.append_assoc, strings_quote]
    simp [strings, strings_quote, pairs, ih]

theorem readMap_quoteMap (m : GoMap Bytes Bytes) (k : Bytes) : (readMap (quoteMap m)).lookup k = m.lookup k := by
  have hmerge : readMap (quoteMap m) = GoMap.merge ∅ m := by
    rw [readMap, quoteMap, List.append_assoc, GoMap.merge, ← strings_quoteEntries]
    rfl
  rw [hmerge, GoMap.lookup_merge, AList.lookup_empty, Option.or_none]

def quoted : Json where
  marshal m := .ok (quoteMap m)
  decode data := .ok (readMap data)
  marshal_decode := fun m => ⟨quoteMap m, readMap (quoteMap m), rfl, rfl, readMap_quoteMap m⟩

end

end Json

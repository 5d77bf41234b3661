import GoYcsb.Lib.Msgpack
import GoYcsb.Lib.Rpc

/-!
This module contains the driver of `db/redis/db.go`. The requests are the commands of the server, a pipeline sends its
commands one after the other.
-/

namespace Redis

abbrev FieldMap := GoMap Bytes Bytes

inductive Command where
  | get (key : Bytes)
  | set (key value : Bytes)
  | del (key : Bytes)
  | hset (key : Bytes) (entries : List (Bytes × Bytes))
  | hmget (key : Bytes) (fields : List Bytes)
  | jsonSet (key path value : Bytes)
  | jsonGet (key path : Bytes)

namespace Command

-- A reply that is `nil` is an error of the client.
abbrev Answer (cmd : Command) : Type :=
  match cmd with
  | .get _ | .jsonGet _ _ => Except Bytes Bytes
  | .hmget _ _ => Except Bytes (List Bytes)
  | .set _ _ | .del _ | .hset _ _ | .jsonSet _ _ _ => Except Bytes Unit

end Command

abbrev Prog := Rpc Command Command.Answer

def get (key : Bytes) : Prog (Except Bytes Bytes) := .send (Command.get key)

def set (key value : Bytes) : Prog (Except Bytes Unit) := .send (Command.set key value)

def del (key : Bytes) : Prog (Except Bytes Unit) := .send (Command.del key)

def hset (key : Bytes) (entries : List (Bytes × Bytes)) : Prog (Except Bytes Unit) := .send (Command.hset key entries)

def hmget (key : Bytes) (fields : List Bytes) : Prog (Except Bytes (List Bytes)) := .send (Command.hmget key fields)

def jsonSet (key path value : Bytes) : Prog (Except Bytes Unit) := .send (Command.jsonSet key path value)

def jsonGet (key path : Bytes) : Prog (Except Bytes Bytes) := .send (Command.jsonGet key path)

-- The names for `redis.datatype`. Any other name stands for `string`.
inductive DataType where
  | json
  | hash
  | string
  deriving DecidableEq, Repr

structure DB where
  json : MapJson
  datatype : DataType
  fieldcount : Int

def jsonEscape (bytes : Bytes) : Bytes := [34] ++ bytes ++ [34]

def getFieldJsonPath (fieldName : Bytes) : Bytes := [36, 46] ++ fieldName

def getKeyName (table key : Bytes) : Bytes := table ++ [47] ++ key

-- `json.Unmarshal` to the address of a map, which `null` makes `nil`.
def unmarshal (json : MapJson) (data : Bytes) (old : FieldMap) : Except Bytes (Option FieldMap) :=
  match json.decode data with
  | .error err => .error err
  | .ok none => .ok none
  | .ok (some m) => .ok (some (old.merge m))

def mergeEncodedJsonWithMap (json : MapJson) (stringReply : Bytes) (values : FieldMap) : Outcome (Except Bytes Bytes) :=
  match unmarshal json stringReply ∅ with
  | .error err => .ret (.error err)
  | .ok none =>
    if values.keys = [] then
      .ret (json.encode none)
    else
      .panic "assignment to entry in nil map"
  | .ok (some curVal) => .ret (json.encode (some (curVal.merge values)))

def jsonGetAll (key : Bytes) (fields : List Bytes) : Prog (List (Except Bytes Bytes)) :=
  match fields with
  | [] => return []
  | fieldName :: fields => do
    let cmd ← jsonGet key (getFieldJsonPath fieldName)
    let cmds ← jsonGetAll key fields
    return cmd :: cmds

def jsonSetAll (key : Bytes) (entries : List (Sigma (fun _ : Bytes => Bytes))) : Prog (List (Except Bytes Unit)) :=
  match entries with
  | [] => return []
  | ⟨fieldName, bytes⟩ :: entries => do
    let cmd ← jsonSet key (getFieldJsonPath fieldName) (jsonEscape bytes)
    let cmds ← jsonSetAll key entries
    return cmd :: cmds

def firstErr (cmds : List (Except Bytes α)) : Option Bytes :=
  match cmds with
  | [] => none
  | .error err :: _ => some err
  | .ok _ :: cmds => firstErr cmds

def fillData (fields : List Bytes) (cmds : List (Except Bytes Bytes)) (data : FieldMap) : Except Bytes FieldMap :=
  match fields, cmds with
  | fieldName :: fields, cmd :: cmds =>
    match cmd with
    | .error err => .error err
    | .ok s => fillData fields cmds (data.insert fieldName s)
  | _, _ => .ok data

namespace DB

variable (r : DB)

-- An error of `HMGET` is dropped.
def read (table key : Bytes) (fields : List Bytes) : Prog (Except Bytes (Option FieldMap)) :=
  match r.datatype with
  | .json => do
    let cmds ← jsonGetAll (getKeyName table key) fields
    match firstErr cmds with
    | some err => return .error err
    | none =>
      match fillData fields cmds ∅ with
      | .error err => return .error err
      | .ok data => return .ok (some data)
  | .hash => do
    match ← hmget (getKeyName table key) fields with
    | .error _ => return .ok (some ∅)
    | .ok sliceReply => return .ok (some (GoMap.insertAll ∅ (fields.zip sliceReply)))
  | .string => do
    match ← get (getKeyName table key) with
    | .error err => return .error err
    | .ok res => return unmarshal r.json res ∅

def setRecord (table key : Bytes) (encodedJson : Except Bytes Bytes) : Prog (Except Bytes Unit) :=
  match encodedJson with
  | .error err => return .error err
  | .ok encodedJson => set (getKeyName table key) encodedJson

def update (order : GoMap.Order Bytes Bytes) (table key : Bytes) (values : Option FieldMap)
    : Prog (Except Bytes Unit) :=
  let entries := order.visit (values.getD ∅)
  let fullUpdate := (((values.getD ∅).keys.length : Nat) : Int) = r.fieldcount
  match r.datatype with
  | .json => do
    let cmds ← jsonSetAll (getKeyName table key) entries.entries
    match firstErr cmds with
    | some err => return .error err
    | none => return .ok ()
  | .hash => hset (getKeyName table key) (entries.entries.map (fun entry => (entry.1, entry.2)))
  | .string =>
    if fullUpdate then
      setRecord table key (r.json.encode values)
    else do
      match ← get (getKeyName table key) with
      | .error err => return .error err
      | .ok initialEncodedJson =>
        let encodedJson ← .lift (mergeEncodedJsonWithMap r.json initialEncodedJson entries)
        setRecord table key encodedJson

def insert (order : GoMap.Order Bytes Bytes) (table key : Bytes) (values : Option FieldMap)
    : Prog (Except Bytes Unit) :=
  match r.json.encode values with
  | .error err => return .error err
  | .ok data =>
    match r.datatype with
    | .json => jsonSet (getKeyName table key) [46] data
    | .hash =>
      hset (getKeyName table key) ((order.visit (values.getD ∅)).entries.map (fun entry => (entry.1, entry.2)))
    | .string => set (getKeyName table key) data

def delete (table key : Bytes) : Prog (Except Bytes Unit) := del (getKeyName table key)

end DB

-- A document is an object whose members are strings.
inductive Value where
  | string (b : Bytes)
  | hash (m : FieldMap)
  | json (doc : FieldMap)

abbrev State := GoMap Bytes Value

/--
How the server reads and writes JSON. It reads the objects of `encoding/json`, which have the values in base64. A string
ends with the first quote that no backslash comes before, so there must be no other quote after it.
-/
structure Server (json : MapJson) where
  readObject : Bytes → Option FieldMap
  readString : Bytes → Option Bytes
  writeString : Bytes → Bytes
  readObject_encode : ∀ values data, json.encode (some values) = .ok data →
    ∃ doc, readObject data = some doc ∧ ∀ field, doc.lookup field = (values.lookup field).map Base64.encode
  readString_quote : ∀ body rest, 34 ∉ body → 92 ∉ body → readString ([34] ++ body ++ [34] ++ rest ++ [34]) = none
  writeString_eq : ∀ s, ∃ body, writeString s = [34] ++ body ++ [34] ∧ s.length ≤ body.length

namespace Server

variable {json : MapJson} (server : Server json)

def wrongType : Bytes := Bytes.ofAscii "WRONGTYPE Operation against a key holding the wrong kind of value"

def nil : Bytes := Bytes.ofAscii "redis: nil"

def memberOf (path : Bytes) : Option Bytes := if [36, 46] <+: path then some (path.drop 2) else none

def jsonSetAt (value : Option Value) (path text : Bytes) : Except Bytes Value :=
  match value, memberOf path with
  | some (.string _), _ => .error wrongType
  | some (.hash _), _ => .error wrongType
  | none, some _ => .error (Bytes.ofAscii "ERR new objects must be created at the root")
  | some (.json doc), some field =>
    match server.readString text with
    | none => .error (Bytes.ofAscii "ERR expected value")
    | some s => .ok (.json (doc.insert field s))
  | _, none =>
    match server.readObject text with
    | none => .error (Bytes.ofAscii "ERR expected value")
    | some doc => .ok (.json doc)

def jsonGetAt (value : Option Value) (path : Bytes) : Except Bytes Bytes :=
  match value with
  | none => .error nil
  | some (.string _) => .error wrongType
  | some (.hash _) => .error wrongType
  | some (.json doc) =>
    match (memberOf path).bind (fun field => doc.lookup field) with
    | none => .ok ([91] ++ [93])
    | some s => .ok ([91] ++ server.writeString s ++ [93])

def hsetAt (value : Option Value) (entries : List (Bytes × Bytes)) : Except Bytes Value :=
  if entries = [] then
    .error (Bytes.ofAscii "ERR wrong number of arguments for 'hset' command")
  else
    match value with
    | none => .ok (.hash (GoMap.insertAll ∅ entries))
    | some (.hash m) => .ok (.hash (m.insertAll entries))
    | some _ => .error wrongType

-- A field that is not there is `nil`, which the client cannot make a string of.
def hmgetAt (value : Option Value) (fields : List Bytes) : Except Bytes (List Bytes) :=
  if fields = [] then
    .error (Bytes.ofAscii "ERR wrong number of arguments for 'hmget' command")
  else
    match value with
    | some (.string _) => .error wrongType
    | some (.json _) => .error wrongType
    | some (.hash m) =>
      match fields.mapM (fun field => m.lookup field) with
      | none => .error (Bytes.ofAscii "redis: unexpected type=<nil> for String")
      | some values => .ok values
    | none => .error (Bytes.ofAscii "redis: unexpected type=<nil> for String")

def store (s : State) (key : Bytes) (value : Except Bytes Value) : Except Bytes Unit × State :=
  match value with
  | .error err => (.error err, s)
  | .ok value => (.ok (), s.insert key value)

def handle (cmd : Command) (s : State) : cmd.Answer × State :=
  match cmd with
  | .get key =>
    match s.lookup key with
    | none => (.error nil, s)
    | some (.string b) => (.ok b, s)
    | some (.hash _) => (.error wrongType, s)
    | some (.json _) => (.error wrongType, s)
  | .set key value => (.ok (), s.insert key (.string value))
  | .del key => (.ok (), s.erase key)
  | .hset key entries => store s key (hsetAt (s.lookup key) entries)
  | .hmget key fields => (hmgetAt (s.lookup key) fields, s)
  | .jsonSet key path value => store s key (server.jsonSetAt (s.lookup key) path value)
  | .jsonGet key path => (server.jsonGetAt (s.lookup key) path, s)

section

/-!
A server of this kind, for which a backslash stands before the bytes that would end a string.
-/

def unquote (acc text : Bytes) : Option Bytes :=
  match text with
  | [] => none
  | [c] => if c = 34 then some acc else none
  | c :: d :: text =>
    if c = 34 then
      none
    else if c = 92 then
      unquote (acc ++ [d]) text
    else
      unquote (acc ++ [c]) (d :: text)

theorem unquote_quote (acc : Bytes) {body : Bytes} (hquote : 34 ∉ body) (hslash : 92 ∉ body) (rest : Bytes)
    : unquote acc (body ++ [34] ++ rest ++ [34]) = none := by
  induction body generalizing acc with
  | nil =>
    cases rest with
    | nil => rfl
    | cons d rest => rfl
  | cons c body ih =>
    rw [List.mem_cons, not_or] at hquote hslash
    have hnext : ∃ d text, body ++ [34] ++ rest ++ [34] = d :: text := by
      cases body with
      | nil => exact ⟨34, rest ++ [34], rfl⟩
      | cons d body => exact ⟨d, _, rfl⟩
    rcases hnext with ⟨d, text, hnext⟩
    rw [List.cons_append, List.cons_append, List.cons_append, hnext, unquote, if_neg (Ne.symm hquote.1),
      if_neg (Ne.symm hslash.1), ← hnext]
    exact ih _ hquote.2 hslash.2

def plain : Server MapJson.base64 where
  readObject data := some (Json.readMap data)
  readString text :=
    match text with
    | [] => none
    | c :: text => if c = 34 then unquote [] text else none
  writeString := Json.quote
  readObject_encode := fun values data h => by
    cases h
    refine ⟨_, rfl, ?_⟩
    intro field
    rw [Json.readMap_quoteMap, GoMap.lookup_mapValues]
  readString_quote := fun body rest hquote hslash => unquote_quote [] hquote hslash rest
  writeString_eq := fun s => ⟨Json.escape s, rfl, Json.length_le_escape s⟩

end

end Server

end Redis

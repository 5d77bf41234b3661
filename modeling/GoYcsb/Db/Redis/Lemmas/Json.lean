import GoYcsb.Db.Redis.Impl.Db

/-!
This module contains what `Read` from `GoYcsb.Db.Redis.Impl.Db` returns for records that are JSON documents, after any
number of updates.
-/

namespace Redis

namespace DB

def updateAll (r : DB) (orders : Nat → GoMap.Order Bytes Bytes) (table key : Bytes) (updates : List FieldMap)
    : Prog (List (Except Bytes Unit)) :=
  match updates with
  | [] => return []
  | values :: updates => do
    let res ← r.update (orders updates.length) table key (some values)
    let results ← updateAll r orders table key updates
    return res :: results

def writeAll (r : DB) (orders : Nat → GoMap.Order Bytes Bytes) (table key : Bytes) (values : FieldMap)
    (updates : List FieldMap) : Prog (List (Except Bytes Unit)) := do
  let res ← r.insert (orders updates.length) table key (some values)
  let results ← r.updateAll orders table key updates
  return res :: results

def written (values : FieldMap) (updates : List FieldMap) : FieldMap :=
  updates.foldl GoMap.merge values

/--
All calls succeed, and `Read` of the fields returns the bytes that were last written to them.
-/
def ReadsWritten (r : DB) (server : Server r.json) (orders : Nat → GoMap.Order Bytes Bytes) (s : State)
    (table key : Bytes) (values : FieldMap) (updates : List FieldMap) : Prop :=
  ∃ results t data,
    (r.writeAll orders table key values updates).exec server.handle s = (.ret results, t)
      ∧
    (∀ res ∈ results, res = .ok ())
      ∧
    ((r.read table key (written values updates).keys).exec server.handle t).1 = .ret (.ok (some data))
      ∧
    ∀ field ∈ written values updates, data.lookup field = (written values updates).lookup field

end DB

theorem mem_written {values : FieldMap} {updates : List FieldMap} {field : Bytes}
    : field ∈ DB.written values updates ↔ ∃ m ∈ values :: updates, field ∈ m := by
  unfold DB.written
  induction updates generalizing values with
  | nil => simp
  | cons update updates ih =>
    rw [List.foldl_cons, ih]
    simp [GoMap.mem_merge, or_assoc]

theorem firstErr_eq_none_iff {cmds : List (Except Bytes Unit)}
    : firstErr cmds = none ↔ ∀ cmd ∈ cmds, cmd = .ok () := by
  induction cmds with
  | nil => simp [firstErr]
  | cons cmd cmds ih =>
    cases cmd with
    | error err => simp [firstErr]
    | ok a => simp [firstErr, ih]

section

variable {json : MapJson} (server : Server json)

def Stored (b text : Bytes) : Prop := text = Base64.encode b ∨ server.readString (jsonEscape b) = some text

def Represents (written doc : FieldMap) : Prop :=
  ∀ field b, written.lookup field = some b → ∃ text, doc.lookup field = some text ∧ Stored server b text

def reply (doc : FieldMap) (field : Bytes) : Bytes :=
  match doc.lookup field with
  | none => [91] ++ [93]
  | some text => [91] ++ server.writeString text ++ [93]

variable {server}

/--
The reply stands in brackets and quotes. It is too long for bytes that come from `Insert`, and `Update` fails for bytes
that start with a bracket and a quote.
-/
theorem reply_ne {doc : FieldMap} {field b text : Bytes} (hdoc : doc.lookup field = some text)
    (h : Stored server b text)
    : reply server doc field ≠ b := by
  rcases server.writeString_eq text with ⟨body, hbody, hlength⟩
  unfold reply
  rw [hdoc]
  dsimp only
  rw [hbody]
  intro heq
  cases h with
  | inl hinsert =>
    have hbase := Base64.length_le_encode b
    rw [← hinsert] at hbase
    rw [← heq] at hbase
    simp only [List.length_append, List.length_cons, List.length_nil] at hbase
    omega
  | inr hupdate =>
    have hnone := server.readString_quote [91] (body ++ [34] ++ [93]) (by decide) (by decide)
    rw [← heq] at hupdate
    simp [jsonEscape] at hupdate hnone
    rw [hnone] at hupdate
    cases hupdate

theorem Represents.insert {written doc : FieldMap} (h : Represents server written doc) (field : Bytes) {b text : Bytes}
    (hstored : Stored server b text)
    : Represents server (written.insert field b) (doc.insert field text) := by
  intro field' b' hlookup
  rw [GoMap.lookup_insert] at hlookup ⊢
  split at hlookup
  . next heq =>
    cases hlookup
    exact ⟨text, by simp [heq], hstored⟩
  . next hne =>
    rw [if_neg hne]
    exact h field' b' hlookup

theorem Represents.congr {written written' doc : FieldMap} (h : Represents server written doc)
    (hsame : ∀ field, written'.lookup field = written.lookup field)
    : Represents server written' doc := by
  intro field b hlookup
  rw [hsame] at hlookup
  exact h field b hlookup

theorem memberOf_getFieldJsonPath (field : Bytes) : Server.memberOf (getFieldJsonPath field) = some field := by
  unfold Server.memberOf getFieldJsonPath
  rw [if_pos (List.prefix_append _ _)]
  rfl

theorem jsonSetAt_of_string {text string : Bytes} (h : server.readString text = some string) (doc : FieldMap)
    (field : Bytes)
    : server.jsonSetAt (some (.json doc)) (getFieldJsonPath field) text = .ok (.json (doc.insert field string)) := by
  simp [Server.jsonSetAt, memberOf_getFieldJsonPath, h]

theorem jsonSetAt_of_not_string {text : Bytes} (h : server.readString text = none) (doc : FieldMap) (field : Bytes)
    : ∃ err, server.jsonSetAt (some (.json doc)) (getFieldJsonPath field) text = .error err := by
  simp [Server.jsonSetAt, memberOf_getFieldJsonPath, h]

theorem exec_jsonSetAll {key : Bytes} (entries : List (Sigma (fun _ : Bytes => Bytes))) {s : State} {doc : FieldMap}
    (hdoc : s.lookup key = some (.json doc))
    : ∃ cmds t doc',
        (jsonSetAll key entries).exec server.handle s = (.ret cmds, t)
          ∧
        t.lookup key = some (.json doc')
          ∧
        ∀ written, (∀ cmd ∈ cmds, cmd = .ok ()) → Represents server written doc →
          Represents server (written.insertAll (entries.map (fun entry => (entry.1, entry.2)))) doc' := by
  induction entries generalizing s doc with
  | nil => exact ⟨[], s, doc, rfl, hdoc, fun _ _ h => h⟩
  | cons entry entries ih =>
    rcases entry with ⟨field, b⟩
    unfold jsonSetAll jsonSet
    rw [Rpc.send_bind, Rpc.exec_call]
    dsimp only [Server.handle]
    rw [hdoc]
    cases htext : server.readString (jsonEscape b) with
    | none =>
      rcases jsonSetAt_of_not_string htext doc field with ⟨err, herr⟩
      rw [herr]
      rcases ih hdoc with ⟨cmds, t, doc', hexec, hdoc', _⟩
      refine ⟨_, t, doc', Rpc.exec_bind_ret hexec, hdoc', ?_⟩
      intro written hok
      simp [Server.store] at hok
    | some text =>
      rw [jsonSetAt_of_string htext]
      have hinsert : (s.insert key (.json (doc.insert field text))).lookup key = some (.json (doc.insert field text)) :=
        AList.lookup_insert s
      rcases ih hinsert with ⟨cmds, t, doc', hexec, hdoc', hrepresents⟩
      refine ⟨_, t, doc', Rpc.exec_bind_ret hexec, hdoc', ?_⟩
      intro written hok hwritten
      rw [List.forall_mem_cons] at hok
      exact hrepresents (written.insert field b) hok.2 (hwritten.insert field (.inr htext))

theorem exec_jsonGetAll {key : Bytes} (fields : List Bytes) {s : State} {doc : FieldMap}
    (hdoc : s.lookup key = some (.json doc))
    : (jsonGetAll key fields).exec server.handle s
        =
      (.ret (fields.map (fun field => .ok (reply server doc field))), s) := by
  have hget : ∀ field, server.jsonGetAt (some (.json doc)) (getFieldJsonPath field) = .ok (reply server doc field) := by
    intro field
    unfold Server.jsonGetAt reply
    dsimp only
    rw [memberOf_getFieldJsonPath, Option.bind_some]
    cases doc.lookup field with
    | none => rfl
    | some text => rfl
  induction fields with
  | nil => rfl
  | cons field fields ih =>
    unfold jsonGetAll jsonGet
    rw [Rpc.send_bind, Rpc.exec_call]
    dsimp only [Server.handle]
    rw [hdoc, hget, Rpc.exec_bind_ret ih]
    rfl

theorem firstErr_map_ok (f : α → β) (l : List α) : firstErr (l.map (fun a => .ok (f a))) = none := by
  induction l with
  | nil => rfl
  | cons a l ih => exact ih

theorem fillData_map (f : Bytes → Bytes) (fields : List Bytes) (data : FieldMap)
    : ∃ data',
        fillData fields (fields.map (fun field => .ok (f field))) data = .ok data'
          ∧
        ∀ field, data'.lookup field = if field ∈ fields then some (f field) else data.lookup field := by
  induction fields generalizing data with
  | nil => exact ⟨data, rfl, by simp⟩
  | cons field fields ih =>
    rcases ih (data.insert field (f field)) with ⟨data', hfill, hlookup⟩
    refine ⟨data', hfill, ?_⟩
    intro field'
    rw [hlookup, GoMap.lookup_insert]
    by_cases heq : field' = field
    . simp [heq]
    . simp [heq]

end

namespace DB

variable {r : DB} {server : Server r.json} {table key : Bytes} (hmode : r.datatype = .json)

include hmode

theorem exec_update_json (order : GoMap.Order Bytes Bytes) (values : FieldMap) {s : State} {doc : FieldMap}
    (hdoc : s.lookup (getKeyName table key) = some (.json doc))
    : ∃ res t doc',
        (r.update order table key (some values)).exec server.handle s = (.ret res, t)
          ∧
        t.lookup (getKeyName table key) = some (.json doc')
          ∧
        ∀ written, res = .ok () → Represents server written doc → Represents server (written.merge values) doc' := by
  rcases exec_jsonSetAll (order.visit values).entries hdoc with ⟨cmds, t, doc', hexec, hdoc', hrepresents⟩
  unfold update
  rw [hmode]
  dsimp only
  rw [Option.getD_some, Rpc.exec_bind_ret hexec]
  cases herr : firstErr cmds with
  | some err => exact ⟨_, t, doc', rfl, hdoc', fun _ hok => absurd hok (by simp)⟩
  | none =>
    refine ⟨_, t, doc', rfl, hdoc', ?_⟩
    intro written _ hwritten
    apply (hrepresents written (firstErr_eq_none_iff.mp herr) hwritten).congr
    intro field
    rw [← GoMap.merge, GoMap.lookup_merge, GoMap.lookup_merge, order.lookup_visit]

theorem exec_updateAll (orders : Nat → GoMap.Order Bytes Bytes) (updates : List FieldMap) {s : State} {doc : FieldMap}
    (hdoc : s.lookup (getKeyName table key) = some (.json doc))
    : ∃ results t doc',
        (r.updateAll orders table key updates).exec server.handle s = (.ret results, t)
          ∧
        t.lookup (getKeyName table key) = some (.json doc')
          ∧
        ∀ values, (∀ res ∈ results, res = .ok ()) → Represents server values doc →
          Represents server (written values updates) doc' := by
  induction updates generalizing s doc with
  | nil => exact ⟨[], s, doc, rfl, hdoc, fun _ _ h => h⟩
  | cons update updates ih =>
    rcases exec_update_json hmode (orders updates.length) update hdoc with ⟨res, s₁, doc₁, hexec, hdoc₁, hstep⟩
    rcases ih hdoc₁ with ⟨results, t, doc', hexec', hdoc', hrest⟩
    unfold updateAll
    rw [Rpc.exec_bind_ret hexec]
    refine ⟨_, t, doc', Rpc.exec_bind_ret hexec', hdoc', ?_⟩
    intro values hok hvalues
    rw [List.forall_mem_cons] at hok
    exact hrest _ hok.2 (hstep values hok.1 hvalues)

theorem exec_read_json (fields : List Bytes) {s : State} {doc : FieldMap}
    (hdoc : s.lookup (getKeyName table key) = some (.json doc))
    : ∃ data,
        (r.read table key fields).exec server.handle s = (.ret (.ok (some data)), s)
          ∧
        ∀ field ∈ fields, data.lookup field = some (reply server doc field) := by
  rcases fillData_map (reply server doc) fields ∅ with ⟨data, hfill, hlookup⟩
  refine ⟨data, ?_, ?_⟩
  . unfold read
    rw [hmode]
    dsimp only
    rw [Rpc.exec_bind_ret (exec_jsonGetAll fields hdoc), firstErr_map_ok]
    dsimp only
    rw [hfill]
    rfl
  . intro field hfield
    rw [hlookup, if_pos hfield]

theorem exec_insert_json (server : Server r.json) (order : GoMap.Order Bytes Bytes) (values : FieldMap) {s : State}
    (hkey : ∀ value, s.lookup (getKeyName table key) = some value → ∃ doc, value = .json doc)
    : ∃ t doc,
        (r.insert order table key (some values)).exec server.handle s = (.ret (.ok ()), t)
          ∧
        t.lookup (getKeyName table key) = some (.json doc)
          ∧
        Represents server values doc := by
  rcases r.json.encode_decode values with ⟨data, _, hencode, _, _⟩
  rcases server.readObject_encode values data hencode with ⟨doc, hread, hdoc⟩
  have hset : server.jsonSetAt (s.lookup (getKeyName table key)) [46] data = .ok (.json doc) := by
    cases hlookup : s.lookup (getKeyName table key) with
    | none => simp [Server.jsonSetAt, Server.memberOf, hread]
    | some value =>
      rcases hkey value hlookup with ⟨old, rfl⟩
      simp [Server.jsonSetAt, Server.memberOf, hread]
  refine ⟨s.insert (getKeyName table key) (.json doc), doc, ?_, AList.lookup_insert s, ?_⟩
  . unfold insert
    rw [hencode]
    dsimp only
    rw [hmode]
    dsimp only [jsonSet, Rpc.send, Rpc.exec_call, Server.handle]
    rw [hset]
    rfl
  . intro field b hlookup
    refine ⟨Base64.encode b, ?_, .inl rfl⟩
    rw [hdoc, hlookup]
    rfl

theorem exec_updateAll_of_empty (server : Server r.json) (orders : Nat → GoMap.Order Bytes Bytes)
    {updates : List FieldMap}
    (hempty : ∀ values ∈ updates, values.keys = []) (s : State)
    : ∃ results,
        (r.updateAll orders table key updates).exec server.handle s = (.ret results, s)
          ∧
        ∀ res ∈ results, res = .ok () := by
  induction updates with
  | nil => exact ⟨[], rfl, by simp⟩
  | cons values updates ih =>
    rw [List.forall_mem_cons] at hempty
    rcases ih hempty.2 with ⟨results, hexec, hok⟩
    have hentries : ((orders updates.length).visit values).entries = [] := by
      have hkeys := (orders updates.length).keys_visit_eq_nil.mpr hempty.1
      exact List.map_eq_nil_iff.mp hkeys
    have hupdate : (r.update (orders updates.length) table key (some values)).exec server.handle s
        = (.ret (.ok ()), s) := by
      unfold update
      rw [hmode]
      dsimp only
      rw [Option.getD_some, hentries]
      rfl
    unfold updateAll
    rw [Rpc.exec_bind_ret hupdate]
    refine ⟨_, Rpc.exec_bind_ret hexec, ?_⟩
    rw [List.forall_mem_cons]
    exact ⟨rfl, hok⟩

theorem readsWritten_iff (server : Server r.json) (orders : Nat → GoMap.Order Bytes Bytes) {s : State}
    (hkey : ∀ value, s.lookup (getKeyName table key) = some value → ∃ doc, value = .json doc) (values : FieldMap)
    (updates : List FieldMap)
    : r.ReadsWritten server orders s table key values updates ↔ ∀ m ∈ values :: updates, m.keys = [] := by
  rcases exec_insert_json hmode server (orders updates.length) values hkey with ⟨s₁, doc, hinsert, hdoc, hvalues⟩
  constructor
  . rintro ⟨results, t, data, hexec, hok, hread, hfields⟩ m hm
    rw [List.eq_nil_iff_forall_not_mem]
    intro field hfield
    rcases exec_updateAll hmode orders updates hdoc with ⟨results', t', doc', hexec', hdoc', hrepresents⟩
    unfold writeAll at hexec
    rw [Rpc.exec_bind_ret hinsert, Rpc.exec_bind_ret hexec'] at hexec
    cases hexec
    rw [List.forall_mem_cons] at hok
    -- The document has something for the field, and `Read` returns it with its brackets and quotes.
    have hmem : field ∈ written values updates := mem_written.mpr ⟨m, hm, AList.mem_keys.mpr hfield⟩
    rcases Option.isSome_iff_exists.mp (AList.lookup_isSome.mpr hmem) with ⟨b, hb⟩
    rcases hrepresents values hok.2 hvalues field b hb with ⟨text, htext, hstored⟩
    rcases exec_read_json hmode (written values updates).keys hdoc' with ⟨data', hread', hreply⟩
    rw [hread'] at hread
    cases hread
    have hlookup := hfields field hmem
    rw [hreply field (AList.mem_keys.mp hmem), hb, Option.some.injEq] at hlookup
    exact reply_ne htext hstored hlookup
  . intro hempty
    have hupdates : ∀ m ∈ updates, m.keys = [] := fun m hm => hempty m (List.mem_cons_of_mem _ hm)
    rcases exec_updateAll_of_empty hmode server orders hupdates s₁ with ⟨results, hexec, hok⟩
    rcases exec_read_json hmode (written values updates).keys hdoc with ⟨data, hread, _⟩
    refine ⟨.ok () :: results, s₁, data, ?_, ?_, by rw [hread], ?_⟩
    . unfold writeAll
      rw [Rpc.exec_bind_ret hinsert, Rpc.exec_bind_ret hexec]
      rfl
    . rw [List.forall_mem_cons]
      exact ⟨rfl, hok⟩
    . intro field hfield
      rcases mem_written.mp hfield with ⟨m, hm, hmem⟩
      rw [AList.mem_keys, hempty m hm] at hmem
      cases hmem

omit hmode in
theorem not_readsWritten_older_document
    : ¬ (DB.mk MapJson.base64 .json 10).ReadsWritten Server.plain (fun _ => .id)
        (GoMap.insertAll ∅ [(getKeyName [116] [107], .json (GoMap.insertAll ∅ [([102], Bytes.ofAscii "Wg==")]))])
        [116] [107] (GoMap.insertAll ∅ [([102], [65])]) [GoMap.insertAll ∅ [([102], [66])]] := by
  rw [readsWritten_iff (r := DB.mk MapJson.base64 .json 10) rfl Server.plain (fun _ => .id)]
  . decide
  . intro value hvalue
    have hmem := (GoMap.mem_of_lookup_insertAll hvalue).resolve_right (by simp)
    rw [List.mem_singleton] at hmem
    cases hmem
    exact ⟨_, rfl⟩

end DB

-- After `Insert` of the byte `A` the reply is `["QQ=="]`, after an update with `B` it is `["B"]`.
theorem read_returns_reply
    : (¬ (DB.mk MapJson.base64 .json 10).ReadsWritten Server.plain (fun _ => .id) ∅ [116] [107]
          (GoMap.insertAll ∅ [([102], [65])]) []
        ∧
       ((do
          let _ ← (DB.mk MapJson.base64 .json 10).writeAll (fun _ => .id) [116] [107]
            (GoMap.insertAll ∅ [([102], [65])]) []
          (DB.mk MapJson.base64 .json 10).read [116] [107] [[102]]).exec Server.plain.handle ∅).1
        = .ret (.ok (some (GoMap.insertAll ∅ [([102], Bytes.ofAscii "[\"QQ==\"]")]))))
        ∧
      ((do
          let _ ← (DB.mk MapJson.base64 .json 10).writeAll (fun _ => .id) [116] [107]
            (GoMap.insertAll ∅ [([102], [65])]) [GoMap.insertAll ∅ [([102], [66])]]
          (DB.mk MapJson.base64 .json 10).read [116] [107] [[102]]).exec Server.plain.handle ∅).1
        = .ret (.ok (some (GoMap.insertAll ∅ [([102], Bytes.ofAscii "[\"B\"]")]))) := by
  refine ⟨⟨?_, rfl⟩, rfl⟩
  rintro ⟨results, t, data, hexec, _, hread, hfields⟩
  cases hexec
  cases hread
  exact absurd (hfields [102] (by decide)) (by decide)

end Redis

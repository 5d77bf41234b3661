import GoYcsb.Db.Sql.Impl.StmtCache

/-!
This module contains in which runs the statement cache from `GoYcsb.Db.Sql.Impl.StmtCache` fits to the connection of
its worker.
-/

namespace StmtCache

structure State.Valid (s : State) : Prop where
  opened : ∀ query stmt, s.stmtCache.lookup query = some stmt → stmt.closed = false
  current : ∀ query stmt, s.stmtCache.lookup query = some stmt → s.conn = some stmt.conn

-- No call uses a connection that is not there, and before and after each call the cache is valid.
def Driver.AlwaysValid (driver : Driver) (s : State) (calls : List Call) : Prop :=
  ∀ served, served <+: calls → ∃ t, driver.serveAll s served = .ret t ∧ t.Valid

namespace Call

-- `ErrConnDone` is answered, and `CleanupThread` called, only while there is no statement in the cache.
def Keeps (s : State) (call : Call) : Prop :=
  match call with
  | .getAndCacheStmt query answers =>
    query ∉ s.stmtCache → answers.prepare = .error .connDone → s.stmtCache = ∅
  | .clearCacheIfFailed _ _ => True
  | .cleanupThread => s.stmtCache = ∅

def LosesConn (s : State) (call : Call) : Prop :=
  match call with
  | .getAndCacheStmt query answers =>
    query ∉ s.stmtCache ∧ answers.prepare = .error .connDone ∧ answers.conn ≠ .ok ()
  | .clearCacheIfFailed _ _ => False
  | .cleanupThread => False

def IsClear (call : Call) : Prop :=
  match call with
  | .getAndCacheStmt _ _ => False
  | .clearCacheIfFailed _ _ => True
  | .cleanupThread => False

end Call

theorem Call.keeps_of_ne (s : State) (query : Bytes) (answers : Answers) (h : answers.prepare ≠ .error .connDone)
    : (Call.getAndCacheStmt query answers).Keeps s ∧ ¬(Call.getAndCacheStmt query answers).LosesConn s := by
  constructor
  . intro _ hdone
    exact absurd hdone h
  . intro hloses
    exact h hloses.2.1

/--
Each call keeps the cache valid, and after a call that loses the connection there are only calls of
`clearCacheIfFailed`.
-/
def Driver.Steady (driver : Driver) (s : State) (calls : List Call) : Prop :=
  match calls with
  | [] => True
  | call :: calls =>
    call.Keeps s
      ∧
    (call.LosesConn s → ∀ later ∈ calls, later.IsClear)
      ∧
    ∀ t, driver.serve s call = .ret t → driver.Steady t calls

theorem Driver.serve_eq (driver : Driver) : driver.serve = State.serve := by
  cases driver with
  | mysql => rfl
  | pg => rfl

namespace State

variable {s : State} {query : Bytes}

def Connected (s : State) : Prop := ∃ conn, s.conn = some conn ∧ conn < s.conns

def Lost (s : State) : Prop := s.conn = none ∧ s.stmtCache = ∅

theorem valid_of_empty (h : s.stmtCache = ∅) : s.Valid where
  opened := by
    intro query stmt hstmt
    rw [h] at hstmt
    contradiction
  current := by
    intro query stmt hstmt
    rw [h] at hstmt
    contradiction

theorem empty_of_lookup (h : ∀ query stmt, s.stmtCache.lookup query ≠ some stmt) : s.stmtCache = ∅ := by
  apply AList.ext
  apply List.eq_nil_iff_forall_not_mem.mpr
  intro entry hentry
  exact h entry.1 entry.2 (AList.mem_lookup_iff.mpr hentry)

theorem valid_iff_of_conn {t : State} (hs : s.Valid) (hcache : t.stmtCache = s.stmtCache) (hconn : t.conn ≠ s.conn)
    : t.Valid ↔ s.stmtCache = ∅ := by
  constructor
  . intro ht
    apply empty_of_lookup
    intro query stmt hstmt
    have hcurrent := ht.current query stmt (by rw [hcache, hstmt])
    exact hconn (hcurrent.trans (hs.current query stmt hstmt).symm)
  . intro hempty
    exact valid_of_empty (hcache.trans hempty)

theorem Valid.cache {conn : Nat} (h : s.Valid) (hconn : s.conn = some conn) : (s.cache query ⟨conn, false⟩).Valid where
  opened := by
    intro query' stmt hstmt
    rw [State.cache, GoMap.lookup_insert] at hstmt
    split at hstmt
    . cases hstmt
      rfl
    . exact h.opened query' stmt hstmt
  current := by
    intro query' stmt hstmt
    rw [State.cache, GoMap.lookup_insert] at hstmt
    split at hstmt
    . cases hstmt
      exact hconn
    . exact h.current query' stmt hstmt

theorem lookup_cache_of_not_mem {stmt : Stmt} (hquery : query ∉ s.stmtCache) {query' : Bytes} {stmt' : Stmt}
    (h : s.stmtCache.lookup query' = some stmt')
    : (s.cache query stmt).stmtCache.lookup query' = some stmt' := by
  have hne : query' ≠ query := by
    rintro rfl
    exact hquery (AList.lookup_isSome.mp (by rw [h]; rfl))
  rw [State.cache, AList.lookup_insert_ne hne, h]

theorem lookup_clearCacheIfFailed {err : Option Error} {query' : Bytes} {stmt : Stmt}
    (h : (s.clearCacheIfFailed query err).stmtCache.lookup query' = some stmt)
    : s.stmtCache.lookup query' = some stmt := by
  cases err with
  | none => exact h
  | some err =>
    by_cases heq : query' = query
    . subst heq
      simp [clearCacheIfFailed] at h
    . simp only [clearCacheIfFailed] at h
      rw [AList.lookup_erase_ne heq] at h
      split at h
      . rw [AList.lookup_insert_ne heq] at h
        exact h
      . exact h

theorem conn_clearCacheIfFailed (s : State) (query : Bytes) (err : Option Error)
    : (s.clearCacheIfFailed query err).conn = s.conn ∧ (s.clearCacheIfFailed query err).conns = s.conns := by
  cases err with
  | none => exact ⟨rfl, rfl⟩
  | some err => exact ⟨rfl, rfl⟩

theorem Valid.clearCacheIfFailed (h : s.Valid) (err : Option Error) : (s.clearCacheIfFailed query err).Valid where
  opened := by
    intro query' stmt hstmt
    exact h.opened query' stmt (lookup_clearCacheIfFailed hstmt)
  current := by
    intro query' stmt hstmt
    rw [(conn_clearCacheIfFailed s query err).1]
    exact h.current query' stmt (lookup_clearCacheIfFailed hstmt)

theorem Lost.clearCacheIfFailed (h : s.Lost) (err : Option Error) : (s.clearCacheIfFailed query err).Lost := by
  constructor
  . rw [(conn_clearCacheIfFailed s query err).1, h.1]
  . apply empty_of_lookup
    intro query' stmt hstmt
    have hlookup := lookup_clearCacheIfFailed hstmt
    rw [h.2] at hlookup
    contradiction

theorem valid_cleanup_iff (s : State)
    : ({ s with stmtCache := s.stmtCache.mapValues Stmt.close } : State).Valid ↔ s.stmtCache = ∅ := by
  constructor
  . intro h
    apply empty_of_lookup
    intro query stmt hstmt
    have hopened := h.opened query stmt.close (by rw [GoMap.lookup_mapValues, hstmt]; rfl)
    contradiction
  . intro hempty
    apply valid_of_empty
    show s.stmtCache.mapValues Stmt.close = ∅
    rw [hempty]
    rfl

theorem getAndCacheStmt_of_mem {answers : Answers} (h : query ∈ s.stmtCache)
    : s.serve (.getAndCacheStmt query answers) = .ret s := by
  rcases Option.isSome_iff_exists.mp (AList.lookup_isSome.mpr h) with ⟨stmt, hstmt⟩
  simp [serve, getAndCacheStmt, hstmt]

section

variable {answers : Answers} {conn : Nat} (hquery : query ∉ s.stmtCache) (hconn : s.conn = some conn)

include hquery hconn

theorem getAndCacheStmt_of_ok (h : answers.prepare = .ok ())
    : s.serve (.getAndCacheStmt query answers) = .ret (s.cache query ⟨conn, false⟩) := by
  simp [serve, getAndCacheStmt, AList.lookup_eq_none.mpr hquery, hconn, prepareContext, h, Except.map]

theorem getAndCacheStmt_of_other {msg : String} (h : answers.prepare = .error (.other msg))
    : s.serve (.getAndCacheStmt query answers) = .ret s := by
  simp [serve, getAndCacheStmt, AList.lookup_eq_none.mpr hquery, hconn, prepareContext, h, Except.map]

theorem getAndCacheStmt_of_conn_error {err : Error} (h : answers.prepare = .error .connDone)
    (herr : answers.conn = .error err)
    : s.serve (.getAndCacheStmt query answers) = .ret { s with conn := none } := by
  simp [serve, getAndCacheStmt, AList.lookup_eq_none.mpr hquery, hconn, prepareContext, h, herr, Except.map]

theorem getAndCacheStmt_of_conn_ok (h : answers.prepare = .error .connDone) (hok : answers.conn = .ok ())
    : ∃ stmtCache,
        s.serve (.getAndCacheStmt query answers) = .ret ⟨stmtCache, some s.conns, s.conns + 1⟩
          ∧
        (stmtCache = s.stmtCache ∨ stmtCache = s.stmtCache.insert query ⟨s.conns, false⟩) := by
  cases hagain : answers.prepareAgain with
  | error err =>
    refine ⟨s.stmtCache, ?_, .inl rfl⟩
    simp [serve, getAndCacheStmt, AList.lookup_eq_none.mpr hquery, hconn, prepareContext, h, hok, hagain, Except.map]
  | ok _ =>
    refine ⟨s.stmtCache.insert query ⟨s.conns, false⟩, ?_, .inr rfl⟩
    simp [serve, getAndCacheStmt, AList.lookup_eq_none.mpr hquery, hconn, prepareContext, h, hok, hagain, Except.map,
      State.cache]

end

theorem valid_reconnected_iff (hs : s.Valid) (hquery : query ∉ s.stmtCache) {conn : Nat} (hconn : s.conn = some conn)
    (hlt : conn < s.conns) {stmtCache : GoMap Bytes Stmt}
    (h : stmtCache = s.stmtCache ∨ stmtCache = s.stmtCache.insert query ⟨s.conns, false⟩)
    : State.Valid ⟨stmtCache, some s.conns, s.conns + 1⟩ ↔ s.stmtCache = ∅ := by
  have hne : some s.conns ≠ s.conn := by
    rw [hconn]
    intro heq
    cases heq
    omega
  have hiff := valid_iff_of_conn (t := ⟨s.stmtCache, some s.conns, s.conns + 1⟩) hs rfl hne
  rcases h with rfl | rfl
  . exact hiff
  . rw [← hiff]
    constructor
    . intro hvalid
      constructor
      . intro query' stmt hstmt
        exact hvalid.opened query' stmt (lookup_cache_of_not_mem hquery hstmt)
      . intro query' stmt hstmt
        exact hvalid.current query' stmt (lookup_cache_of_not_mem hquery hstmt)
    . intro hvalid
      exact hvalid.cache rfl

theorem serve_spec_of_connDone (hs : s.Valid) {answers : Answers} (hquery : query ∉ s.stmtCache) {conn : Nat}
    (hconn : s.conn = some conn) (hlt : conn < s.conns) (hprepare : answers.prepare = .error .connDone)
    : ∃ t,
        s.serve (.getAndCacheStmt query answers) = .ret t
          ∧
        (t.Valid ↔ s.stmtCache = ∅)
          ∧
        (s.stmtCache = ∅ →
          ((Call.getAndCacheStmt query answers).LosesConn s ∧ t.Lost)
            ∨
          (¬(Call.getAndCacheStmt query answers).LosesConn s ∧ t.Connected)) := by
  cases hnew : answers.conn with
  | error err =>
    refine ⟨{ s with conn := none }, getAndCacheStmt_of_conn_error hquery hconn hprepare hnew, ?_, ?_⟩
    . refine valid_iff_of_conn (t := { s with conn := none }) hs rfl ?_
      rw [hconn]
      nofun
    . intro hempty
      refine .inl ⟨⟨hquery, hprepare, ?_⟩, rfl, hempty⟩
      rw [hnew]
      nofun
  | ok _ =>
    rcases getAndCacheStmt_of_conn_ok hquery hconn hprepare hnew with ⟨stmtCache, hserve, hcache⟩
    refine ⟨_, hserve, valid_reconnected_iff hs hquery hconn hlt hcache, ?_⟩
    intro _
    refine .inr ⟨fun h => h.2.2 hnew, s.conns, rfl, Nat.lt_succ_self _⟩

/--
A call that keeps the cache valid loses the connection or it leaves one; all other calls make the cache invalid.
-/
theorem serve_spec (hs : s.Valid) (hconn : s.Connected) (call : Call)
    : ∃ t,
        s.serve call = .ret t
          ∧
        (t.Valid ↔ call.Keeps s)
          ∧
        (call.Keeps s → (call.LosesConn s ∧ t.Lost) ∨ (¬call.LosesConn s ∧ t.Connected)) := by
  rcases hconn with ⟨conn, hconn, hlt⟩
  cases call with
  | clearCacheIfFailed query err =>
    refine ⟨s.clearCacheIfFailed query err, rfl, iff_of_true (hs.clearCacheIfFailed err) trivial, ?_⟩
    intro _
    rcases conn_clearCacheIfFailed s query err with ⟨hconn', hconns'⟩
    exact .inr ⟨id, conn, hconn'.trans hconn, hconns'.symm ▸ hlt⟩
  | cleanupThread =>
    refine ⟨{ s with stmtCache := s.stmtCache.mapValues Stmt.close }, ?_, valid_cleanup_iff s, ?_⟩
    . simp [serve, cleanupThread, hconn]
    . intro _
      exact .inr ⟨id, conn, hconn, hlt⟩
  | getAndCacheStmt query answers =>
    by_cases hquery : query ∈ s.stmtCache
    . refine ⟨s, getAndCacheStmt_of_mem hquery, iff_of_true hs (absurd hquery), ?_⟩
      intro _
      exact .inr ⟨fun h => h.1 hquery, conn, hconn, hlt⟩
    . cases hprepare : answers.prepare with
      | ok _ =>
        have hcall := Call.keeps_of_ne s query answers (by simp [hprepare])
        refine ⟨_, getAndCacheStmt_of_ok hquery hconn hprepare, iff_of_true (hs.cache hconn) hcall.1, ?_⟩
        intro _
        exact .inr ⟨hcall.2, conn, hconn, hlt⟩
      | error err =>
        cases err with
        | other msg =>
          have hcall := Call.keeps_of_ne s query answers (by simp [hprepare])
          refine ⟨s, getAndCacheStmt_of_other hquery hconn hprepare, iff_of_true hs hcall.1, ?_⟩
          intro _
          exact .inr ⟨hcall.2, conn, hconn, hlt⟩
        | connDone =>
          have hkeeps : (Call.getAndCacheStmt query answers).Keeps s ↔ s.stmtCache = ∅ :=
            ⟨fun h => h hquery hprepare, fun h _ _ => h⟩
          rw [hkeeps]
          exact serve_spec_of_connDone hs hquery hconn hlt hprepare

end State

namespace Driver

variable {driver : Driver} {s : State} {calls : List Call}

theorem serveAll_cons (driver : Driver) (s : State) (call : Call) (calls : List Call)
    : driver.serveAll s (call :: calls) = (driver.serve s call >>= fun t => driver.serveAll t calls) := rfl

theorem AlwaysValid.valid (h : driver.AlwaysValid s calls) : s.Valid := by
  rcases h [] (List.nil_prefix) with ⟨t, hserve, hvalid⟩
  cases hserve
  exact hvalid

theorem alwaysValid_cons {call : Call} {t : State} (hserve : driver.serve s call = .ret t)
    : driver.AlwaysValid s (call :: calls) ↔ s.Valid ∧ driver.AlwaysValid t calls := by
  constructor
  . intro h
    refine ⟨h.valid, ?_⟩
    intro served hserved
    have hcons := h (call :: served) (List.cons_prefix_cons.mpr ⟨rfl, hserved⟩)
    rw [serveAll_cons, hserve] at hcons
    exact hcons
  . rintro ⟨hvalid, h⟩ served hserved
    cases served with
    | nil => exact ⟨s, rfl, hvalid⟩
    | cons call' served =>
      rcases List.cons_prefix_cons.mp hserved with ⟨rfl, htail⟩
      rw [serveAll_cons, hserve]
      exact h served htail

theorem not_alwaysValid_of_panics {call : Call} (hserve : (driver.serve s call).Panics)
    : ¬driver.AlwaysValid s (call :: calls) := by
  intro h
  rcases h [call] (List.cons_prefix_cons.mpr ⟨rfl, List.nil_prefix⟩) with ⟨t, ht, _⟩
  rcases hserve with ⟨msg, hserve⟩
  rw [serveAll_cons, hserve] at ht
  cases ht

theorem alwaysValid_iff_of_lost (h : s.Lost) : driver.AlwaysValid s calls ↔ ∀ call ∈ calls, call.IsClear := by
  induction calls generalizing s with
  | nil =>
    refine iff_of_true ?_ (by simp)
    intro served hserved
    rw [List.prefix_nil.mp hserved]
    exact ⟨s, rfl, State.valid_of_empty h.2⟩
  | cons call calls ih =>
    rw [List.forall_mem_cons]
    cases call with
    | clearCacheIfFailed query err =>
      have hserve : driver.serve s (.clearCacheIfFailed query err) = .ret (s.clearCacheIfFailed query err) := by
        rw [serve_eq]
        rfl
      rw [alwaysValid_cons hserve, ih (h.clearCacheIfFailed err)]
      exact and_congr_left' (iff_of_true (State.valid_of_empty h.2) trivial)
    | cleanupThread =>
      refine iff_of_false (not_alwaysValid_of_panics ?_) (fun hclear => hclear.1)
      simp [serve_eq, State.serve, State.cleanupThread, h.1, Outcome.Panics]
    | getAndCacheStmt query answers =>
      refine iff_of_false (not_alwaysValid_of_panics ?_) (fun hclear => hclear.1)
      simp [serve_eq, State.serve, State.getAndCacheStmt, h.1, h.2, prepareContext, Outcome.Panics]

theorem steady_of_isClear (h : ∀ call ∈ calls, call.IsClear) : driver.Steady s calls := by
  induction calls generalizing s with
  | nil => trivial
  | cons call calls ih =>
    rw [List.forall_mem_cons] at h
    cases call with
    | clearCacheIfFailed query err => exact ⟨trivial, False.elim, fun t _ => ih h.2⟩
    | cleanupThread => exact h.1.elim
    | getAndCacheStmt query answers => exact h.1.elim

theorem alwaysValid_iff_of_connected (hs : s.Valid) (hconn : s.Connected)
    : driver.AlwaysValid s calls ↔ driver.Steady s calls := by
  induction calls generalizing s with
  | nil =>
    refine iff_of_true ?_ trivial
    intro served hserved
    rw [List.prefix_nil.mp hserved]
    exact ⟨s, rfl, hs⟩
  | cons call calls ih =>
    rcases State.serve_spec hs hconn call with ⟨t, hserve, hvalid, hkeeps⟩
    rw [← serve_eq driver] at hserve
    rw [alwaysValid_cons hserve, Steady]
    constructor
    . rintro ⟨_, halways⟩
      have hkeep := hvalid.mp halways.valid
      refine ⟨hkeep, ?_, ?_⟩
      . intro hloses
        rcases hkeeps hkeep with ⟨_, hlost⟩ | ⟨hnot, _⟩
        . exact (alwaysValid_iff_of_lost hlost).mp halways
        . contradiction
      . intro t' hserve'
        rw [hserve] at hserve'
        cases hserve'
        rcases hkeeps hkeep with ⟨_, hlost⟩ | ⟨_, hconn'⟩
        . exact steady_of_isClear ((alwaysValid_iff_of_lost hlost).mp halways)
        . exact (ih halways.valid hconn').mp halways
    . rintro ⟨hkeep, hloses, hsteady⟩
      refine ⟨hs, ?_⟩
      rcases hkeeps hkeep with ⟨hlose, hlost⟩ | ⟨_, hconn'⟩
      . exact (alwaysValid_iff_of_lost hlost).mpr (hloses hlose)
      . exact (ih (hvalid.mpr hkeep) hconn').mpr (hsteady t hserve)

theorem initThread_eq_ret {answer : Except Error Unit} (h : driver.initThread answer = .ret s)
    : s = ⟨∅, some 0, 1⟩ := by
  cases answer with
  | error err =>
    cases driver with
    | mysql => cases h
    | pg => cases h
  | ok _ =>
    cases driver with
    | mysql =>
      cases h
      rfl
    | pg =>
      cases h
      rfl

end Driver

theorem State.execQuery_eq_serveAll (driver : Driver) (s : State) (query : Bytes) (answers : Answers)
    (exec : Option Error) {err : Option Error} {t : State} (h : s.execQuery query answers exec = .ret (err, t))
    : driver.serveAll s [.getAndCacheStmt query answers] = .ret t
        ∨
      driver.serveAll s [.getAndCacheStmt query answers, .clearCacheIfFailed query exec] = .ret t := by
  rcases Outcome.bind_eq_ret h with ⟨⟨stmt, s'⟩, hget, hret⟩
  have hserve : driver.serve s (.getAndCacheStmt query answers) = .ret s' := by
    rw [Driver.serve_eq, State.serve, hget]
    rfl
  cases stmt with
  | error err' =>
    left
    cases hret
    rw [Driver.serveAll_cons, hserve]
    rfl
  | ok stmt =>
    right
    cases hret
    rw [Driver.serveAll_cons, hserve, Outcome.ret_bind, Driver.serveAll_cons, Driver.serve_eq]
    rfl

theorem alwaysValid_iff_steady (driver : Driver) {answer : Except Error Unit} {s : State}
    (hinit : driver.initThread answer = .ret s) (calls : List Call)
    : driver.AlwaysValid s calls ↔ driver.Steady s calls := by
  rw [Driver.initThread_eq_ret hinit]
  exact Driver.alwaysValid_iff_of_connected (State.valid_of_empty rfl) ⟨0, rfl, Nat.one_pos⟩

theorem alwaysValid_first_query
    : Driver.mysql.AlwaysValid ⟨∅, some 0, 1⟩
        [.getAndCacheStmt (Bytes.ofAscii "a") ⟨.error .connDone, .ok (), .ok ()⟩,
          .clearCacheIfFailed (Bytes.ofAscii "a") (some (.other "deadlock"))] := by
  rw [alwaysValid_iff_steady .mysql (show Driver.mysql.initThread (.ok ()) = _ from rfl)]
  refine ⟨fun _ _ => rfl, fun h => absurd rfl h.2.2, ?_⟩
  intro t _
  exact Driver.steady_of_isClear (by simp [Call.IsClear])

/--
After a reconnect the other statements belong to the old connection, and after a reconnect that fails the next call
panics.
-/
theorem reconnect_keeps_statements
    : ¬Driver.mysql.AlwaysValid ⟨∅, some 0, 1⟩
          [.getAndCacheStmt (Bytes.ofAscii "a") ⟨.ok (), .ok (), .ok ()⟩,
            .getAndCacheStmt (Bytes.ofAscii "b") ⟨.error .connDone, .ok (), .ok ()⟩]
        ∧
      ¬Driver.pg.AlwaysValid ⟨∅, some 0, 1⟩
          [.getAndCacheStmt (Bytes.ofAscii "a") ⟨.ok (), .ok (), .ok ()⟩,
            .getAndCacheStmt (Bytes.ofAscii "b") ⟨.error .connDone, .ok (), .ok ()⟩]
        ∧
      ¬Driver.mysql.AlwaysValid ⟨∅, some 0, 1⟩
          [.getAndCacheStmt (Bytes.ofAscii "a") ⟨.error .connDone, .error (.other "refused"), .ok ()⟩,
            .getAndCacheStmt (Bytes.ofAscii "a") ⟨.ok (), .ok (), .ok ()⟩] := by
  have hstale (driver : Driver)
      : ¬driver.AlwaysValid ⟨∅, some 0, 1⟩
          [.getAndCacheStmt (Bytes.ofAscii "a") ⟨.ok (), .ok (), .ok ()⟩,
            .getAndCacheStmt (Bytes.ofAscii "b") ⟨.error .connDone, .ok (), .ok ()⟩] := by
    intro h
    rcases h _ List.prefix_rfl with ⟨t, hserve, hvalid⟩
    simp only [Driver.serveAll, Driver.serve_eq] at hserve
    cases hserve
    have hcurrent := hvalid.current (Bytes.ofAscii "a") ⟨0, false⟩ (by decide +kernel)
    cases hcurrent
  refine ⟨hstale .mysql, hstale .pg, ?_⟩
  intro h
  rcases h _ List.prefix_rfl with ⟨t, hserve, _⟩
  cases hserve

end StmtCache

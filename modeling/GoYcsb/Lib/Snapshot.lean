import GoYcsb.Lib.Threads

/-!
This module contains a server with snapshot isolation. A transaction reads the contents as of its begin, and its commit
fails if one of the keys that it writes was written meanwhile. Programs that write whatever they have read, or nothing
at all, are linearizable.
-/

namespace Snapshot

open Threads AtomicObject

inductive Request (K V : Type) where
  | begin
  | get (key : K)
  | commit (buffer : List (K × Option V))

abbrev Request.Answer {K V : Type} (E : Type) (req : Request K V) : Type :=
  match req with
  | .begin => Except E Unit
  | .get _ => Except E (Option V)
  | .commit _ => Except E Unit

abbrev Prog (K V E R : Type) := Rpc (Request K V) (Request.Answer E) R

-- A request that fails may have reached the server nevertheless.
inductive Choice (E : Type) where
  | succeed
  | fail (err : E) (reached : Bool)

abbrev Contents (K V : Type) := K → Option V

variable {W K V E C R : Type} [DecidableEq W] [DecidableEq K]

def begin : Prog K V E (Except E Unit) := .send Request.begin

def get (key : K) : Prog K V E (Except E (Option V)) := .send (Request.get key)

def commit (buffer : List (K × Option V)) : Prog K V E (Except E Unit) := .send (Request.commit buffer)

def write (contents : Contents K V) (buffer : List (K × Option V)) : Contents K V :=
  buffer.foldl (fun contents entry => Function.update contents entry.1 entry.2) contents

/--
The commits in their order, with the number of commits that each thread saw when it began its transaction.
-/
structure Server (W K V : Type) where
  base : Contents K V
  log : List (List (K × Option V))
  start : W → Nat

namespace Server

def new (base : Contents K V) : Server W K V := ⟨base, [], fun _ => 0⟩

def contentsAt (s : Server W K V) (n : Nat) : Contents K V := (s.log.take n).foldl write s.base

def contents (s : Server W K V) : Contents K V := s.log.foldl write s.base

def conflicts (s : Server W K V) (w : W) (buffer : List (K × Option V)) : Bool :=
  (s.log.drop (s.start w)).any (fun old => old.any (fun entry => buffer.any (fun entry' => entry.1 = entry'.1)))

def begin (s : Server W K V) (w : W) : Server W K V := { s with start := Function.update s.start w s.log.length }

def append (s : Server W K V) (buffer : List (K × Option V)) : Server W K V := { s with log := s.log ++ [buffer] }

end Server

def serve (conflict : E) (w : W) (req : Request K V) (choice : Choice E) (s : Server W K V)
    : Option (req.Answer E × Server W K V) :=
  match req with
  | .begin =>
    match choice with
    | .succeed => some (.ok (), s.begin w)
    | .fail err _ => some (.error err, s)
  | .get key =>
    match choice with
    | .succeed => some (.ok (s.contentsAt (s.start w) key), s)
    | .fail err _ => some (.error err, s)
  | .commit buffer =>
    match choice with
    | .succeed => if s.conflicts w buffer then some (.error conflict, s) else some (.ok (), s.append buffer)
    | .fail err reached => some (.error err, if reached && !s.conflicts w buffer then s.append buffer else s)

abbrev State (W K V E C R : Type) := Threads.State W C (Request K V) (Request.Answer E) R (Server W K V)

def system (conflict : E) (prog : C → Prog K V E R)
    : System W C (Request K V) (Request.Answer E) R (Choice E) (Server W K V) :=
  ⟨prog, serve conflict⟩

/--
What a program does if nobody else talks to the server. Each of its requests may fail.
-/
inductive Alone : Prog K V E R → Contents K V → R → Contents K V → Prop where
  | done {contents : Contents K V} {res : R} : Alone (.done (.ret res)) contents res contents
  | begin {cont : Except E Unit → Prog K V E R} {contents contents' : Contents K V} {res : R} :
      Alone (cont (.ok ())) contents res contents' → Alone (.call .begin cont) contents res contents'
  | beginFail {cont : Except E Unit → Prog K V E R} {contents contents' : Contents K V} {res : R} (err : E) :
      Alone (cont (.error err)) contents res contents' → Alone (.call .begin cont) contents res contents'
  | get {key : K} {cont : Except E (Option V) → Prog K V E R} {contents contents' : Contents K V} {res : R} :
      Alone (cont (.ok (contents key))) contents res contents' → Alone (.call (.get key) cont) contents res contents'
  | getFail {key : K} {cont : Except E (Option V) → Prog K V E R} {contents contents' : Contents K V} {res : R}
      (err : E)
    : Alone (cont (.error err)) contents res contents' → Alone (.call (.get key) cont) contents res contents'
  | commit {buffer : List (K × Option V)} {cont : Except E Unit → Prog K V E R} {contents contents' : Contents K V}
      {res : R} : Alone (cont (.ok ())) (write contents buffer) res contents' →
      Alone (.call (.commit buffer) cont) contents res contents'
  | commitFail {buffer : List (K × Option V)} {cont : Except E Unit → Prog K V E R} {contents contents' : Contents K V}
      {res : R} (err : E) : Alone (cont (.error err)) contents res contents' →
      Alone (.call (.commit buffer) cont) contents res contents'
  | commitReached {buffer : List (K × Option V)} {cont : Except E Unit → Prog K V E R}
      {contents contents' : Contents K V} {res : R} (err : E) :
      Alone (cont (.error err)) (write contents buffer) res contents' →
      Alone (.call (.commit buffer) cont) contents res contents'

def spec (prog : C → Prog K V E R) : Spec C R (Contents K V) :=
  fun contents call res contents' => Alone (prog call) contents res contents'

inductive Stage (K : Type) where
  | outside
  | inside (reads : List K)

/--
A program that makes one transaction, whose commit writes all that it has read or nothing, and comes last.
-/
def Transaction (stage : Stage K) (prog : Prog K V E R) : Prop :=
  match prog with
  | .done _ => True
  | .call .begin cont =>
    stage = .outside ∧ Transaction (.inside []) (cont (.ok ())) ∧ ∀ err, ∃ out, cont (.error err) = .done out
  | .call (.get key) cont =>
    ∃ reads, stage = .inside reads ∧ (∀ value, Transaction (.inside (key :: reads)) (cont (.ok value)))
      ∧ ∀ err, Transaction (.inside reads) (cont (.error err))
  | .call (.commit buffer) cont =>
    ∃ reads, stage = .inside reads
      ∧ ((buffer = [] ∧ ∀ answer, ∃ out, cont answer = .done out)
        ∨ ((∀ key ∈ reads, key ∈ buffer.map Prod.fst) ∧ ∀ answer, ∃ res, cont answer = .done (.ret res)))

section

variable {α : Type} {contents contents' : Contents K V} {res : R} {buffer : List (K × Option V)}

theorem alone_done {out : Outcome R}
    : Alone (.done out : Prog K V E R) contents res contents' ↔ out = .ret res ∧ contents' = contents := by
  constructor
  . intro h
    cases h
    exact ⟨rfl, rfl⟩
  . rintro ⟨rfl, rfl⟩
    exact .done

theorem alone_begin_bind {f : Except E Unit → Prog K V E R}
    : Alone (begin >>= f) contents res contents'
        ↔
      Alone (f (.ok ())) contents res contents' ∨ ∃ err, Alone (f (.error err)) contents res contents' := by
  constructor
  . intro h
    generalize hprog : begin >>= f = prog at h
    cases h with
    | begin h =>
      cases hprog
      exact .inl h
    | beginFail err h =>
      cases hprog
      exact .inr ⟨err, h⟩
    | _ => cases hprog
  . rintro (h | ⟨err, h⟩)
    . exact .begin h
    . exact .beginFail err h

theorem alone_get_bind {key : K} {f : Except E (Option V) → Prog K V E R}
    : Alone (get key >>= f) contents res contents'
        ↔
      Alone (f (.ok (contents key))) contents res contents' ∨ ∃ err, Alone (f (.error err)) contents res contents' := by
  constructor
  . intro h
    generalize hprog : get key >>= f = prog at h
    cases h with
    | get h =>
      cases hprog
      exact .inl h
    | getFail err h =>
      cases hprog
      exact .inr ⟨err, h⟩
    | _ => cases hprog
  . rintro (h | ⟨err, h⟩)
    . exact .get h
    . exact .getFail err h

theorem alone_commit_bind {f : Except E Unit → Prog K V E R}
    : Alone (commit buffer >>= f) contents res contents'
        ↔
      Alone (f (.ok ())) (write contents buffer) res contents'
        ∨
      ∃ err,
        Alone (f (.error err)) contents res contents'
          ∨
        Alone (f (.error err)) (write contents buffer) res contents' := by
  constructor
  . intro h
    generalize hprog : commit buffer >>= f = prog at h
    cases h with
    | commit h =>
      cases hprog
      exact .inl h
    | commitFail err h =>
      cases hprog
      exact .inr ⟨err, .inl h⟩
    | commitReached err h =>
      cases hprog
      exact .inr ⟨err, .inr h⟩
    | _ => cases hprog
  . rintro (h | ⟨err, h | h⟩)
    . exact .commit h
    . exact .commitFail err h
    . exact .commitReached err h

theorem alone_commit {res : Except E Unit}
    : Alone (commit buffer) contents res contents'
        ↔
      res = .ok () ∧ contents' = write contents buffer
        ∨
      ∃ err, res = .error err ∧ (contents' = contents ∨ contents' = write contents buffer) := by
  have hbind : (commit buffer : Prog K V E (Except E Unit)) = commit buffer >>= fun answer => pure answer := rfl
  rw [hbind, alone_commit_bind]
  simp only [Rpc.pure_eq, alone_done, Outcome.ret.injEq, ← and_or_left]
  simp only [eq_comm]

theorem Alone.of_map {prog : Prog K V E α} {f : α → R}
    (h : Alone (prog >>= fun a => pure (f a)) contents res contents')
    : ∃ a, res = f a ∧ Alone prog contents a contents' := by
  induction prog generalizing contents with
  | done out =>
    cases out with
    | ret a =>
      rcases alone_done.mp h with ⟨hres, hcontents⟩
      cases hres
      exact ⟨a, rfl, alone_done.mpr ⟨rfl, hcontents⟩⟩
    | panic msg => cases h
    | exit msg => cases h
    | running => cases h
  | call req cont ih =>
    rw [Rpc.call_bind] at h
    cases h with
    | begin h =>
      rcases ih _ h with ⟨a, hres, h⟩
      exact ⟨a, hres, .begin h⟩
    | beginFail err h =>
      rcases ih _ h with ⟨a, hres, h⟩
      exact ⟨a, hres, .beginFail err h⟩
    | get h =>
      rcases ih _ h with ⟨a, hres, h⟩
      exact ⟨a, hres, .get h⟩
    | getFail err h =>
      rcases ih _ h with ⟨a, hres, h⟩
      exact ⟨a, hres, .getFail err h⟩
    | commit h =>
      rcases ih _ h with ⟨a, hres, h⟩
      exact ⟨a, hres, .commit h⟩
    | commitFail err h =>
      rcases ih _ h with ⟨a, hres, h⟩
      exact ⟨a, hres, .commitFail err h⟩
    | commitReached err h =>
      rcases ih _ h with ⟨a, hres, h⟩
      exact ⟨a, hres, .commitReached err h⟩

omit [DecidableEq K] in
theorem exists_done_bind {prog : Prog K V E α} {f : α → Prog K V E R} (h : ∃ out, prog = .done out)
    (hf : ∀ a, ∃ out, f a = .done out)
    : ∃ out, (prog >>= f) = .done out := by
  rcases h with ⟨out, rfl⟩
  cases out with
  | ret a => exact hf a
  | panic msg => exact ⟨_, rfl⟩
  | exit msg => exact ⟨_, rfl⟩
  | running => exact ⟨_, rfl⟩

omit [DecidableEq K] in
theorem transaction_lift_bind {out : Outcome α} {f : α → Prog K V E R} {stage : Stage K}
    (h : ∀ a, Transaction stage (f a))
    : Transaction stage (.lift out >>= f) := by
  cases out with
  | ret a => exact h a
  | panic msg => exact trivial
  | exit msg => exact trivial
  | running => exact trivial

omit [DecidableEq K] in
theorem transaction_begin_bind {f : Except E Unit → Prog K V E R} (hok : Transaction (.inside []) (f (.ok ())))
    (hfail : ∀ err, ∃ out, f (.error err) = .done out)
    : Transaction .outside (begin >>= f) :=
  ⟨rfl, hok, hfail⟩

omit [DecidableEq K] in
theorem transaction_commit {reads : List K} (h : ∀ key ∈ reads, key ∈ buffer.map Prod.fst)
    : Transaction (.inside reads) (commit buffer : Prog K V E (Except E Unit)) :=
  ⟨reads, rfl, .inr ⟨h, fun answer => ⟨answer, rfl⟩⟩⟩

omit [DecidableEq K] in
theorem Transaction.map {prog : Prog K V E α} {stage : Stage K} (h : Transaction stage prog) (f : α → R)
    : Transaction stage (prog >>= fun a => pure (f a)) := by
  induction prog generalizing stage with
  | done out =>
    exact transaction_lift_bind (fun _ => trivial)
  | call req cont ih =>
    cases req with
    | begin =>
      rcases h with ⟨hstage, hok, hfail⟩
      exact ⟨hstage, ih _ hok, fun err => exists_done_bind (hfail err) (fun _ => ⟨_, rfl⟩)⟩
    | get key =>
      rcases h with ⟨reads, hstage, hok, hfail⟩
      exact ⟨reads, hstage, fun value => ih _ (hok value), fun err => ih _ (hfail err)⟩
    | commit buffer =>
      rcases h with ⟨reads, hstage, ⟨hbuffer, hdone⟩ | ⟨hreads, hret⟩⟩
      . exact ⟨reads, hstage, .inl ⟨hbuffer, fun answer => exists_done_bind (hdone answer) (fun _ => ⟨_, rfl⟩)⟩⟩
      . refine ⟨reads, hstage, .inr ⟨hreads, ?_⟩⟩
        intro answer
        rcases hret answer with ⟨a, ha⟩
        dsimp only
        rw [ha]
        exact ⟨f a, rfl⟩

end

section

variable {s : Server W K V} {w : W} {buffer : List (K × Option V)} {n : Nat}

omit [DecidableEq W]

theorem contents_append (s : Server W K V) (buffer : List (K × Option V))
    : (s.append buffer).contents = write s.contents buffer := by
  unfold Server.append Server.contents
  rw [List.foldl_append]
  rfl

theorem contentsAt_append (h : n ≤ s.log.length) (buffer : List (K × Option V))
    : (s.append buffer).contentsAt n = s.contentsAt n := by
  unfold Server.append Server.contentsAt
  dsimp only
  rw [List.take_append_of_le_length h]

theorem contentsAt_length (s : Server W K V) : s.contentsAt s.log.length = s.contents := by
  unfold Server.contentsAt Server.contents
  rw [List.take_length]

theorem write_of_not_mem {contents : Contents K V} {key : K} (h : key ∉ buffer.map Prod.fst)
    : write contents buffer key = contents key := by
  unfold write
  induction buffer generalizing contents with
  | nil => rfl
  | cons entry buffer ih =>
    rw [List.map_cons, List.mem_cons, not_or] at h
    rw [List.foldl_cons, ih h.2, Function.update_of_ne h.1]

theorem contents_eq_of_not_conflicts (hconflict : s.conflicts w buffer = false) {key : K}
    (hkey : key ∈ buffer.map Prod.fst)
    : s.contents key = s.contentsAt (s.start w) key := by
  unfold Server.conflicts at hconflict
  rcases List.mem_map.mp hkey with ⟨entry', hentry', rfl⟩
  have hold : ∀ old ∈ s.log.drop (s.start w), entry'.1 ∉ old.map Prod.fst := by
    intro old hold hmem
    rcases List.mem_map.mp hmem with ⟨entry, hentry, heq⟩
    rw [List.any_eq_false] at hconflict
    apply hconflict old hold
    rw [List.any_eq_true]
    refine ⟨entry, hentry, ?_⟩
    rw [List.any_eq_true]
    exact ⟨entry', hentry', decide_eq_true heq⟩
  unfold Server.contents Server.contentsAt
  rw [← List.take_append_drop (s.start w) s.log, List.foldl_append, List.take_append_drop]
  generalize (s.log.take (s.start w)).foldl write s.base = contents
  generalize s.log.drop (s.start w) = olds at hold
  induction olds generalizing contents with
  | nil => rfl
  | cons old olds ih =>
    rw [List.forall_mem_cons] at hold
    rw [List.foldl_cons, ih _ hold.2, write_of_not_mem hold.1]

end

structure Extends (s s' : Server W K V) (w : W) : Prop where
  start : s'.start w = s.start w
  length : s.log.length ≤ s'.log.length
  contentsAt : ∀ n ≤ s.log.length, s'.contentsAt n = s.contentsAt n

omit [DecidableEq W] in
theorem Extends.refl (s : Server W K V) (w : W) : Extends s s w := ⟨rfl, Nat.le_refl _, fun _ _ => rfl⟩

omit [DecidableEq W] in
theorem extends_append (s : Server W K V) (buffer : List (K × Option V)) (w : W) : Extends s (s.append buffer) w where
  start := rfl
  length := by
    unfold Server.append
    rw [List.length_append]
    omega
  contentsAt := fun _ h => contentsAt_append h buffer

-- What is ahead of a call can be put after what it has done, if it starts from where it has read the same.
def Replays (prog rest : Prog K V E R) (reads : List K) (o : Contents K V) : Prop :=
  ∀ contents res contents', (∀ key ∈ reads, contents key = o key) → Alone rest contents res contents' →
    Alone prog contents res contents'

/--
What is known about a call that has not been given its moment, with `rest` ahead of it.
-/
inductive Pending (prog : Prog K V E R) (s : Server W K V) (w : W) (seen : Contents K V → Prop)
    : Prog K V E R → Prop where
  | outside {rest : Prog K V E R} : rest = prog → Transaction .outside rest → Pending prog s w seen rest
  | inside {rest : Prog K V E R} {reads : List K} : s.start w ≤ s.log.length → seen (s.contentsAt (s.start w)) →
      Transaction (.inside reads) rest → Replays prog rest reads (s.contentsAt (s.start w)) →
      Pending prog s w seen rest
  | ended {out : Outcome R} {o : Contents K V} : seen o → (∀ res, out = .ret res → Alone prog o res o) →
      Pending prog s w seen (.done out)

section

variable {rest call : Prog K V E R} {s s' : Server W K V} {w : W} {seen seen' : Contents K V → Prop}

omit [DecidableEq W]

theorem Pending.extends (h : Pending call s w seen rest) (hextends : Extends s s' w) (hseen : ∀ o, seen o → seen' o)
    : Pending call s' w seen' rest := by
  cases h with
  | outside hrest htransaction => exact .outside hrest htransaction
  | inside hstart ho htransaction hreplays =>
    have hcontents := hextends.contentsAt _ hstart
    rw [← hextends.start] at hcontents hstart ho hreplays
    rw [← hcontents] at ho hreplays
    exact .inside (Nat.le_trans hstart hextends.length) (hseen _ ho) htransaction hreplays
  | ended ho halone => exact .ended (hseen _ ho) halone

theorem Pending.exists_moment {res : R} (h : Pending call s w seen (.done (.ret res))) (hseen : seen s.contents)
    : ∃ o, seen o ∧ Alone call o res o := by
  cases h with
  | outside hrest htransaction =>
    rw [← hrest]
    exact ⟨_, hseen, .done⟩
  | inside hstart ho htransaction hreplays => exact ⟨_, ho, hreplays _ _ _ (fun _ _ => rfl) .done⟩
  | ended ho halone => exact ⟨_, ho, halone _ rfl⟩

end

inductive Matches (prog : C → Prog K V E R) (s : Server W K V) (w : W)
    : Thread C (Request K V) (Request.Answer E) R → Observed.Phase C R (Contents K V) → Prop where
  | idle : Matches prog s w .idle .idle
  | pending {call : C} {seen : Contents K V → Prop} {rest : Prog K V E R} : seen s.contents →
      Pending (prog call) s w seen rest → Matches prog s w (.busy call rest) (.pending call seen)
  | taken {call : C} {res : R} : Matches prog s w (.busy call (.done (.ret res))) (.taken call res)

structure Simulates (prog : C → Prog K V E R) (s : State W K V E C R) (cfg : Observed.Config W C R (Contents K V))
    : Prop where
  history : cfg.history = s.history
  obj : cfg.obj = s.server.contents
  thread : ∀ w, Matches prog s.server w (s.thread w) (cfg.phase w)

section

variable {prog : C → Prog K V E R} {s t : State W K V E C R} {cfg cfg' : Observed.Config W C R (Contents K V)} {w : W}
  {base : Contents K V} {server : Server W K V} {call : C} {seen : Contents K V → Prop} {res : R}

theorem Simulates.update (hsim : Simulates prog s cfg) (hobj : cfg'.obj = server.contents)
    (hextends : ∀ w', w' ≠ w → Extends s.server server w')
    (hphase : ∀ w', w' ≠ w → cfg'.phase w' = cfg.phase w' ∧ cfg'.obj = cfg.obj
      ∨ cfg'.phase w' = (cfg.phase w').see cfg'.obj)
    {thread : Thread C (Request K V) (Request.Answer E) R}
    (hthread : Matches prog server w thread (cfg'.phase w)) (w' : W)
    : Matches prog server w' (Function.update s.thread w thread w') (cfg'.phase w') := by
  by_cases hne : w' = w
  . subst hne
    rw [Function.update_self]
    exact hthread
  . rw [Function.update_of_ne hne]
    have hmatches := hsim.thread w'
    have hphase' := hphase w' hne
    generalize s.thread w' = thread' at hmatches
    generalize cfg.phase w' = phase' at hmatches hphase'
    cases hmatches with
    | idle =>
      have hidle : cfg'.phase w' = .idle := hphase'.elim (fun h => h.1) id
      rw [hidle]
      exact .idle
    | pending hseen hpending =>
      rcases hphase' with ⟨hphase', hsame⟩ | hphase'
      . rw [hphase']
        rw [hsim.obj, hobj] at hsame
        rw [← hsame] at hseen
        exact .pending hseen (hpending.extends (hextends w' hne) (fun _ h => h))
      . rw [hphase']
        exact .pending (.inr hobj.symm) (hpending.extends (hextends w' hne) (fun _ h => .inl h))
    | taken =>
      have htaken : cfg'.phase w' = .taken _ _ := hphase'.elim (fun h => h.1) id
      rw [htaken]
      exact .taken

theorem Simulates.invoke (hsim : Simulates prog s cfg) (hreach : Observed.Reachable (spec prog) base cfg)
    (hprog : ∀ call, Transaction .outside (prog call)) (hidle : s.thread w = .idle) (call : C)
    : ∃ cfg', Observed.Reachable (spec prog) base cfg' ∧ Simulates prog (s.invoke w call (prog call)) cfg' := by
  have hmatches := hsim.thread w
  rw [hidle] at hmatches
  generalize hphase : cfg.phase w = phase at hmatches
  cases hmatches with
  | idle =>
    have hinvoke : Observed.Step (spec prog) w cfg (cfg.invoke w call) := .invoke hphase
    have hobj : (cfg.invoke w call).obj = s.server.contents := hsim.obj
    refine ⟨_, hreach.step hinvoke, ?_, hobj, ?_⟩
    . unfold Observed.Config.invoke State.invoke
      dsimp only
      rw [hsim.history]
    . apply hsim.update hobj (fun _ _ => Extends.refl _ _) (fun w' hne => .inl ⟨Function.update_of_ne hne _ _, rfl⟩)
      unfold Observed.Config.invoke
      dsimp only
      rw [Function.update_self]
      exact .pending hsim.obj.symm (.outside rfl (hprog call))

theorem Simulates.respond (hsim : Simulates prog s cfg) (hreach : Observed.Reachable (spec prog) base cfg)
    (hbusy : s.thread w = .busy call (.done (.ret res)))
    : ∃ cfg', Observed.Reachable (spec prog) base cfg' ∧ Simulates prog (s.respond w call res) cfg' := by
  have htaken : ∃ cfg', Observed.Reachable (spec prog) base cfg' ∧ cfg'.history = cfg.history ∧ cfg'.obj = cfg.obj
      ∧ cfg'.phase w = .taken call res ∧ ∀ w', w' ≠ w → cfg'.phase w' = cfg.phase w' := by
    have hmatches := hsim.thread w
    rw [hbusy] at hmatches
    generalize hphase : cfg.phase w = phase at hmatches
    cases hmatches with
    | pending hseen hpending =>
      rcases hpending.exists_moment hseen with ⟨o, ho, halone⟩
      have hremember : Observed.Step (spec prog) w cfg (cfg.remember w call res) := .remember hphase ho halone
      exact ⟨_, hreach.step hremember, rfl, rfl, Function.update_self .., fun w' hne => Function.update_of_ne hne _ _⟩
    | taken => exact ⟨cfg, hreach, rfl, rfl, hphase, fun _ _ => rfl⟩
  rcases htaken with ⟨cfg₁, hreach₁, hhistory, hobj, hphase, hothers⟩
  have hrespond : Observed.Step (spec prog) w cfg₁ (cfg₁.respond w call res) := .respond hphase
  have hobj' : (cfg₁.respond w call res).obj = s.server.contents := hobj.trans hsim.obj
  refine ⟨_, hreach₁.step hrespond, ?_, hobj', ?_⟩
  . unfold Observed.Config.respond State.respond
    dsimp only
    rw [hhistory, hsim.history]
  . apply hsim.update hobj' (fun _ _ => Extends.refl _ _)
    . intro w' hne
      left
      refine ⟨?_, hobj⟩
      rw [← hothers w' hne]
      exact Function.update_of_ne hne _ _
    . unfold Observed.Config.respond
      dsimp only
      rw [Function.update_self]
      exact .idle

theorem Simulates.goOn (hsim : Simulates prog s cfg) (hphase : cfg.phase w = .pending call seen)
    (hcontents : server.contents = s.server.contents) (hextends : ∀ w', w' ≠ w → Extends s.server server w')
    {rest : Prog K V E R} (hseen : seen s.server.contents) (hpending : Pending (prog call) server w seen rest)
    : Simulates prog (s.resume w server call rest) cfg := by
  have hobj : cfg.obj = server.contents := by rw [hsim.obj, hcontents]
  refine ⟨hsim.history, hobj, hsim.update hobj hextends (fun _ _ => .inl ⟨rfl, rfl⟩) ?_⟩
  rw [hphase]
  rw [← hcontents] at hseen
  exact .pending hseen hpending

theorem Simulates.takeCommit (hsim : Simulates prog s cfg) (hreach : Observed.Reachable (spec prog) base cfg)
    (hphase : cfg.phase w = .pending call seen) {buffer : List (K × Option V)}
    (hspec : spec prog s.server.contents call res (write s.server.contents buffer))
    : ∃ cfg', Observed.Reachable (spec prog) base cfg'
        ∧ Simulates prog (s.resume w (s.server.append buffer) call (.done (.ret res))) cfg' := by
  rw [← hsim.obj] at hspec
  have htake : Observed.Step (spec prog) w cfg (cfg.take w call res (write cfg.obj buffer)) := .take hphase hspec
  have hobj : write cfg.obj buffer = (s.server.append buffer).contents := by rw [contents_append, hsim.obj]
  refine ⟨_, hreach.step htake, hsim.history, hobj, hsim.update hobj (fun _ _ => extends_append _ _ _) ?_ ?_⟩
  . intro w' hne
    right
    unfold Observed.Config.take
    dsimp only
    rw [Function.update_of_ne hne]
  . unfold Observed.Config.take
    dsimp only
    rw [Function.update_self]
    exact .taken

inductive Commits (s : Server W K V) (w : W) (buffer : List (K × Option V)) : Except E Unit → Server W K V → Prop where
  | commit : s.conflicts w buffer = false → Commits s w buffer (.ok ()) (s.append buffer)
  | fail (err : E) : Commits s w buffer (.error err) s
  | reached (err : E) : s.conflicts w buffer = false → Commits s w buffer (.error err) (s.append buffer)

theorem commits_of_serve {conflict : E} {choice : Choice E} {s server : Server W K V} {buffer : List (K × Option V)}
    {answer : Except E Unit} (h : serve conflict w (.commit buffer) choice s = some (answer, server))
    : Commits s w buffer answer server := by
  dsimp only [serve] at h
  cases choice with
  | succeed =>
    dsimp only at h
    split at h
    . cases h
      exact .fail conflict
    . next hconflict =>
      cases h
      exact .commit (Bool.eq_false_of_not_eq_true hconflict)
  | fail err reached =>
    cases h
    split
    . next hreached =>
      rw [Bool.and_eq_true, Bool.not_eq_true'] at hreached
      exact .reached err hreached.2
    . exact .fail err

omit [DecidableEq W] in
theorem Alone.of_commits {s server : Server W K V} {buffer : List (K × Option V)} {answer : Except E Unit}
    {cont : Except E Unit → Prog K V E R} (h : Commits s w buffer answer server)
    (hcont : cont answer = .done (.ret res))
    : (server = s ∧ ∀ o, Alone (.call (.commit buffer) cont) o res o)
        ∨
      (server = s.append buffer ∧ s.conflicts w buffer = false
        ∧ ∀ o, Alone (.call (.commit buffer) cont) o res (write o buffer)) := by
  cases h with
  | commit hconflict =>
    refine .inr ⟨rfl, hconflict, fun o => .commit ?_⟩
    rw [hcont]
    exact .done
  | fail err =>
    refine .inl ⟨rfl, fun o => .commitFail err ?_⟩
    rw [hcont]
    exact .done
  | reached err hconflict =>
    refine .inr ⟨rfl, hconflict, fun o => .commitReached err ?_⟩
    rw [hcont]
    exact .done

theorem Simulates.commit (hsim : Simulates prog s cfg) (hreach : Observed.Reachable (spec prog) base cfg)
    (hphase : cfg.phase w = .pending call seen) (hseen : seen s.server.contents) {buffer : List (K × Option V)}
    {cont : Except E Unit → Prog K V E R} (hpending : Pending (prog call) s.server w seen (.call (.commit buffer) cont))
    {answer : Except E Unit} (hcommits : Commits s.server w buffer answer server)
    : ∃ cfg', Observed.Reachable (spec prog) base cfg'
        ∧ Simulates prog (s.resume w server call (cont answer)) cfg' := by
  cases hpending with
  | outside hrest htransaction =>
    rcases htransaction with ⟨reads, hstage, _⟩
    contradiction
  | inside hstart ho htransaction hreplays =>
    rcases htransaction with ⟨reads, hstage, ⟨rfl, hdone⟩ | ⟨hreads, hret⟩⟩
    . -- an empty commit changes nothing, so that the moment is the begin of the transaction
      rcases hdone answer with ⟨out, hout⟩
      rw [hout]
      have hserver : server.contents = s.server.contents ∧ ∀ w', w' ≠ w → Extends s.server server w' := by
        cases hcommits with
        | commit hconflict => exact ⟨contents_append _ _, fun _ _ => extends_append _ _ _⟩
        | fail err => exact ⟨rfl, fun _ _ => Extends.refl _ _⟩
        | reached err hconflict => exact ⟨contents_append _ _, fun _ _ => extends_append _ _ _⟩
      refine ⟨cfg, hreach, hsim.goOn hphase hserver.1 hserver.2 hseen (.ended ho ?_)⟩
      rintro res rfl
      apply hreplays _ _ _ (fun _ _ => rfl)
      rcases Alone.of_commits hcommits hout with ⟨_, halone⟩ | ⟨_, _, halone⟩
      . exact halone _
      . exact halone _
    . rcases hret answer with ⟨res, hres⟩
      rw [hres]
      cases hstage
      rcases Alone.of_commits hcommits hres with ⟨rfl, halone⟩ | ⟨rfl, hconflict, halone⟩
      . refine ⟨cfg, hreach, hsim.goOn hphase rfl (fun _ _ => Extends.refl _ _) hseen (.ended ho ?_)⟩
        rintro _ ⟨⟩
        exact hreplays _ _ _ (fun _ _ => rfl) (halone _)
      . apply hsim.takeCommit hreach hphase
        apply hreplays _ _ _ _ (halone _)
        intro key hkey
        exact contents_eq_of_not_conflicts hconflict (hreads key hkey)

theorem Simulates.request (hsim : Simulates prog s cfg) (hreach : Observed.Reachable (spec prog) base cfg)
    {req : Request K V} {cont : req.Answer E → Prog K V E R} (hbusy : s.thread w = .busy call (.call req cont))
    {conflict : E} {choice : Choice E} {answer : req.Answer E}
    (hserve : serve conflict w req choice s.server = some (answer, server))
    : ∃ cfg', Observed.Reachable (spec prog) base cfg'
        ∧ Simulates prog (s.resume w server call (cont answer)) cfg' := by
  have hmatches := hsim.thread w
  rw [hbusy] at hmatches
  generalize hphase : cfg.phase w = phase at hmatches
  cases hmatches with
  | pending hseen hpending =>
    cases req with
    | begin =>
      cases hpending with
      | inside hstart ho htransaction hreplays =>
        have hstage := htransaction.1
        contradiction
      | outside hrest htransaction =>
        rcases htransaction with ⟨_, hok, hfail⟩
        cases choice with
        | succeed =>
          cases hserve
          have hcontents : (s.server.begin w).contents = s.server.contents := rfl
          have hstart : (s.server.begin w).start w = (s.server.begin w).log.length := Function.update_self ..
          refine ⟨cfg, hreach, hsim.goOn hphase hcontents ?_ hseen (.inside hstart.le ?_ hok ?_)⟩
          . exact fun w' hne => ⟨Function.update_of_ne hne _ _, Nat.le_refl _, fun _ _ => rfl⟩
          . rw [hstart, contentsAt_length, hcontents]
            exact hseen
          . intro contents res contents' _ halone
            rw [← hrest]
            exact .begin halone
        | fail err reached =>
          cases hserve
          rcases hfail err with ⟨out, hout⟩
          rw [hout]
          refine ⟨cfg, hreach, hsim.goOn hphase rfl (fun _ _ => Extends.refl _ _) hseen (.ended hseen ?_)⟩
          rintro res rfl
          rw [← hrest]
          apply Alone.beginFail err
          rw [hout]
          exact .done
    | get key =>
      cases hpending with
      | outside hrest htransaction =>
        rcases htransaction with ⟨reads, hstage, _⟩
        contradiction
      | inside hstart ho htransaction hreplays =>
        rcases htransaction with ⟨reads, hstage, hok, hfail⟩
        cases hstage
        cases choice with
        | succeed =>
          cases hserve
          refine ⟨cfg, hreach, hsim.goOn hphase rfl (fun _ _ => Extends.refl _ _) hseen (.inside hstart ho (hok _) ?_)⟩
          intro contents res contents' hagree halone
          rw [List.forall_mem_cons] at hagree
          apply hreplays _ _ _ hagree.2
          apply Alone.get
          rw [hagree.1]
          exact halone
        | fail err reached =>
          cases hserve
          refine ⟨cfg, hreach, hsim.goOn hphase rfl (fun _ _ => Extends.refl _ _) hseen ?_⟩
          refine .inside hstart ho (hfail err) ?_
          intro contents res contents' hagree halone
          exact hreplays _ _ _ hagree (.getFail err halone)
    | commit buffer => exact hsim.commit hreach hphase hseen hpending (commits_of_serve hserve)

/--
Programs that make one transaction each, and whose commit writes what they have read or nothing, behave as if each of
them ran alone at some moment of its call.
-/
theorem linearizable {conflict : E} {allowed : State W K V E C R → Label W C (Choice E) → Prop}
    {labels : List (Label W C (Choice E))} (hprog : ∀ call, Transaction .outside (prog call))
    (hrun : Run (system conflict prog).step allowed (init (.new base)) labels s)
    : Linearizable (spec prog) base s.history := by
  have hinit : Simulates prog (init (.new base)) (Observed.start (W := W) base) := ⟨rfl, rfl, fun _ => .idle⟩
  have hreach : ∃ cfg, Observed.Reachable (spec prog) base cfg ∧ Simulates prog s cfg := by
    apply Observed.exists_reachable hinit _ hrun
    intro s cfg label t hreach hsim _ hstep
    cases System.takes_of_step hstep with
    | invoke hidle => exact hsim.invoke hreach hprog hidle _
    | request hbusy hserve => exact hsim.request hreach hbusy hserve
    | respond hbusy => exact hsim.respond hreach hbusy
  rcases hreach with ⟨cfg, hreach, hsim⟩
  have hlinear := hreach.linearizable
  rw [hsim.history] at hlinear
  exact hlinear

end

end Snapshot

import GoYcsb.Lib.Run
import Mathlib.Data.Finset.Basic
import Mathlib.Logic.Function.Basic
import Mathlib.Logic.Relation

/-!
This module contains an object that any number of threads call, where each call takes place at one moment between its
invocation and its response. A history of invocations and responses that such an object can produce is linearizable.
-/

namespace AtomicObject

inductive Event (W C R : Type) where
  | invoke (w : W) (call : C)
  | respond (w : W) (call : C) (res : R)
  deriving DecidableEq, Repr

/--
Where a thread is in its call. It is `pending` before the moment at which the call takes place and `taken` afterwards.
-/
inductive Phase (C R : Type) where
  | idle
  | pending (call : C)
  | taken (call : C) (res : R)

structure Config (W C R S : Type) where
  history : List (Event W C R)
  obj : S
  phase : W → Phase C R

abbrev Spec (C R S : Type) := S → C → R → S → Prop

variable {W C R S T : Type}

def start (obj : S) : Config W C R S := ⟨[], obj, fun _ => .idle⟩

section

variable [DecidableEq W]

namespace Config

def invoke (cfg : Config W C R S) (w : W) (call : C) : Config W C R S :=
  { cfg with history := cfg.history ++ [.invoke w call], phase := Function.update cfg.phase w (.pending call) }

def take (cfg : Config W C R S) (w : W) (call : C) (res : R) (obj : S) : Config W C R S :=
  { cfg with obj, phase := Function.update cfg.phase w (.taken call res) }

def respond (cfg : Config W C R S) (w : W) (call : C) (res : R) : Config W C R S :=
  { cfg with history := cfg.history ++ [.respond w call res], phase := Function.update cfg.phase w .idle }

end Config

inductive Step (spec : Spec C R S) : Config W C R S → Config W C R S → Prop where
  | invoke {cfg : Config W C R S} {w : W} {call : C} : cfg.phase w = .idle → Step spec cfg (cfg.invoke w call)
  | take {cfg : Config W C R S} {w : W} {call : C} {res : R} {obj : S} : cfg.phase w = .pending call →
      spec cfg.obj call res obj → Step spec cfg (cfg.take w call res obj)
  | respond {cfg : Config W C R S} {w : W} {call : C} {res : R} : cfg.phase w = .taken call res →
      Step spec cfg (cfg.respond w call res)

def Reachable (spec : Spec C R S) (obj : S) (cfg : Config W C R S) : Prop :=
  Relation.ReflTransGen (Step spec) (start obj) cfg

def Linearizable (spec : Spec C R S) (obj : S) (history : List (Event W C R)) : Prop :=
  ∃ cfg, Reachable spec obj cfg ∧ cfg.history = history

variable {spec : Spec C R S} {obj : S} {cfg cfg' : Config W C R S}

theorem Reachable.step (h : Reachable spec obj cfg) (hstep : Step spec cfg cfg') : Reachable spec obj cfg' :=
  Relation.ReflTransGen.tail h hstep

theorem Linearizable.map {spec' : Spec C R T} (f : S → T) {I : S → Prop} {history : List (Event W C R)} (hinit : I obj)
    (hspec : ∀ s call res s', I s → spec s call res s' → I s' ∧ spec' (f s) call res (f s'))
    (h : Linearizable spec obj history)
    : Linearizable spec' (f obj) history := by
  rcases h with ⟨cfg, hreach, hhistory⟩
  have hmap : I cfg.obj ∧ Reachable spec' (f obj) ⟨cfg.history, f cfg.obj, cfg.phase⟩ := by
    clear hhistory
    induction hreach with
    | refl => exact ⟨hinit, .refl⟩
    | tail _ hstep ih =>
      rcases ih with ⟨hI, hreach'⟩
      cases hstep with
      | invoke hidle => exact ⟨hI, hreach'.step (.invoke hidle)⟩
      | take hpending htake =>
        rcases hspec _ _ _ _ hI htake with ⟨hI', htake'⟩
        exact ⟨hI', hreach'.step (.take hpending htake')⟩
      | respond htaken => exact ⟨hI, hreach'.step (.respond htaken)⟩
  exact ⟨_, hmap.2, hhistory⟩

end

end AtomicObject

/-!
A call that leaves the object as it is can also be given a moment that has passed already. For that, a pending call
remembers the objects that it has seen since its invocation.
-/

namespace Observed

open AtomicObject

inductive Phase (C R S : Type) where
  | idle
  | pending (call : C) (seen : S → Prop)
  | taken (call : C) (res : R)

namespace Phase

variable {C R S : Type}

def see (obj : S) (phase : Phase C R S) : Phase C R S :=
  match phase with
  | .pending call seen => .pending call (fun o => seen o ∨ o = obj)
  | .idle => .idle
  | .taken call res => .taken call res

def resolve (phase : Phase C R S) (choice : Option R) : AtomicObject.Phase C R :=
  match phase, choice with
  | .idle, _ => .idle
  | .pending call _, none => .pending call
  | .pending call _, some res => .taken call res
  | .taken call res, _ => .taken call res

def Offers (spec : Spec C R S) (phase : Phase C R S) (res : R) : Prop :=
  match phase with
  | .pending call seen => ∃ o, seen o ∧ spec o call res o
  | .idle | .taken _ _ => False

theorem Offers.see {spec : Spec C R S} {phase : Phase C R S} {obj : S} {res : R} (h : (phase.see obj).Offers spec res)
    : phase.Offers spec res ∨ ∃ call seen, phase = .pending call seen ∧ spec obj call res obj := by
  cases phase with
  | idle => exact absurd h not_false
  | taken call res => exact absurd h not_false
  | pending call seen =>
    rcases h with ⟨o, hseen | rfl, hspec⟩
    . exact .inl ⟨o, hseen, hspec⟩
    . exact .inr ⟨call, seen, rfl, hspec⟩

end Phase

structure Config (W C R S : Type) where
  history : List (Event W C R)
  obj : S
  phase : W → Phase C R S

variable {W C R S : Type}

def start (obj : S) : Config W C R S := ⟨[], obj, fun _ => .idle⟩

section

variable [DecidableEq W]

namespace Config

def invoke (cfg : Config W C R S) (w : W) (call : C) : Config W C R S where
  history := cfg.history ++ [.invoke w call]
  obj := cfg.obj
  phase := Function.update cfg.phase w (.pending call (fun o => o = cfg.obj))

def take (cfg : Config W C R S) (w : W) (call : C) (res : R) (obj : S) : Config W C R S where
  history := cfg.history
  obj := obj
  phase := Function.update (fun w' => (cfg.phase w').see obj) w (.taken call res)

def remember (cfg : Config W C R S) (w : W) (call : C) (res : R) : Config W C R S :=
  { cfg with phase := Function.update cfg.phase w (.taken call res) }

def respond (cfg : Config W C R S) (w : W) (call : C) (res : R) : Config W C R S :=
  { cfg with history := cfg.history ++ [.respond w call res], phase := Function.update cfg.phase w .idle }

def resolve (cfg : Config W C R S) (choice : W → Option R) : AtomicObject.Config W C R S :=
  ⟨cfg.history, cfg.obj, fun w => (cfg.phase w).resolve (choice w)⟩

end Config

inductive Step (spec : Spec C R S) (w : W) : Config W C R S → Config W C R S → Prop where
  | invoke {cfg : Config W C R S} {call : C} : cfg.phase w = .idle → Step spec w cfg (cfg.invoke w call)
  | take {cfg : Config W C R S} {call : C} {seen : S → Prop} {res : R} {obj : S} : cfg.phase w = .pending call seen →
      spec cfg.obj call res obj → Step spec w cfg (cfg.take w call res obj)
  | remember {cfg : Config W C R S} {call : C} {seen : S → Prop} {res : R} {o : S} : cfg.phase w = .pending call seen →
      seen o → spec o call res o → Step spec w cfg (cfg.remember w call res)
  | respond {cfg : Config W C R S} {call : C} {res : R} : cfg.phase w = .taken call res →
      Step spec w cfg (cfg.respond w call res)

def Reachable (spec : Spec C R S) (obj : S) (cfg : Config W C R S) : Prop :=
  Relation.ReflTransGen (fun cfg cfg' => ∃ w, Step spec w cfg cfg') (start obj) cfg

variable {spec : Spec C R S} {obj : S} {cfg cfg' : Config W C R S} {w : W} {choice choice' : W → Option R}

theorem Reachable.step (h : Reachable spec obj cfg) (hstep : Step spec w cfg cfg') : Reachable spec obj cfg' :=
  Relation.ReflTransGen.tail h ⟨w, hstep⟩

-- The calls of `ws` may all take place now, one after the other.
theorem reachable_resolve (choice : W → Option R) (ws : Finset W)
    (hreach : AtomicObject.Reachable spec obj (cfg.resolve choice))
    (hws : ∀ w ∈ ws, choice w = none ∧ ∀ res, choice' w = some res →
      ∃ call seen, cfg.phase w = .pending call seen ∧ spec cfg.obj call res cfg.obj)
    (hsame : ∀ w, w ∉ ws → choice' w = choice w)
    : AtomicObject.Reachable spec obj (cfg.resolve choice') := by
  induction ws using Finset.induction_on generalizing choice' with
  | empty =>
    have heq : choice' = choice := funext (fun w => hsame w (Finset.notMem_empty w))
    rw [heq]
    exact hreach
  | @insert w ws hnotMem ih =>
    have hbefore : AtomicObject.Reachable spec obj (cfg.resolve (Function.update choice' w none)) := by
      apply ih
      . intro w' hw'
        have hne : w' ≠ w := by
          rintro rfl
          exact hnotMem hw'
        rw [Function.update_of_ne hne]
        exact hws w' (Finset.mem_insert_of_mem hw')
      . intro w' hw'
        by_cases hne : w' = w
        . subst hne
          rw [Function.update_self, (hws w' (Finset.mem_insert_self w' ws)).1]
        . rw [Function.update_of_ne hne]
          exact hsame w' (by simp [hne, hw'])
    cases hchoice : choice' w with
    | none =>
      rw [← hchoice, Function.update_eq_self] at hbefore
      exact hbefore
    | some res =>
      rcases (hws w (Finset.mem_insert_self w ws)).2 res hchoice with ⟨call, seen, hpending, hspec⟩
      have htake : cfg.resolve choice' = (cfg.resolve (Function.update choice' w none)).take w call res cfg.obj := by
        unfold Config.resolve AtomicObject.Config.take
        dsimp only
        congr 1
        funext w'
        by_cases hne : w' = w
        . subst hne
          rw [Function.update_self, hpending, hchoice]
          rfl
        . rw [Function.update_of_ne hne, Function.update_of_ne hne]
      rw [htake]
      apply hbefore.step
      apply AtomicObject.Step.take _ hspec
      unfold Config.resolve
      dsimp only
      rw [Function.update_self, hpending]
      rfl

/--
Whatever moments the pending calls will be given in the end, they are moments of the object.
-/
def Covered (spec : Spec C R S) (obj : S) (cfg : Config W C R S) : Prop :=
  ∀ (ws : Finset W) (choice : W → Option R), (∀ w, w ∉ ws → choice w = none) →
    (∀ w res, choice w = some res → (cfg.phase w).Offers spec res) →
    AtomicObject.Reachable spec obj (cfg.resolve choice)

theorem resolve_update {phase : Phase C R S} {history : List (Event W C R)} (hchoice : choice w = none)
    : (Config.resolve ⟨history, obj, Function.update cfg.phase w phase⟩ choice)
        =
      ⟨history, obj, Function.update (cfg.resolve choice).phase w (phase.resolve none)⟩ := by
  unfold Config.resolve
  dsimp only
  congr 1
  funext w'
  by_cases hne : w' = w
  . subst hne
    rw [Function.update_self, Function.update_self, hchoice]
  . rw [Function.update_of_ne hne, Function.update_of_ne hne]

theorem Covered.invoke (h : Covered spec obj cfg) {call : C} (hidle : cfg.phase w = .idle)
    : Covered spec obj (cfg.invoke w call) := by
  intro ws choice hws hoffers
  apply reachable_resolve (Function.update choice w none) {w}
  . have hbefore : AtomicObject.Reachable spec obj (cfg.resolve (Function.update choice w none)) := by
      apply h ws
      . intro w' hw'
        by_cases hne : w' = w
        . rw [hne, Function.update_self]
        . rw [Function.update_of_ne hne, hws w' hw']
      . intro w' res hres
        by_cases hne : w' = w
        . rw [hne, Function.update_self] at hres
          contradiction
        . rw [Function.update_of_ne hne] at hres
          have hw' := hoffers w' res hres
          unfold Config.invoke at hw'
          dsimp only at hw'
          rwa [Function.update_of_ne hne] at hw'
    unfold Config.invoke
    rw [resolve_update (Function.update_self ..)]
    apply hbefore.step
    apply AtomicObject.Step.invoke
    unfold Config.resolve
    dsimp only
    rw [hidle]
    rfl
  . intro w' hw'
    rw [Finset.mem_singleton] at hw'
    subst hw'
    refine ⟨Function.update_self .., ?_⟩
    intro res hres
    have hw' := hoffers w' res hres
    unfold Config.invoke at hw' ⊢
    dsimp only at hw' ⊢
    rw [Function.update_self] at hw' ⊢
    rcases hw' with ⟨o, rfl, hspec⟩
    exact ⟨call, _, rfl, hspec⟩
  . intro w' hw'
    rw [Finset.mem_singleton] at hw'
    rw [Function.update_of_ne hw']

theorem choice_eq_none {phase : Phase C R S} {f : W → Phase C R S}
    (hoffers : ∀ w' res, choice w' = some res → (Function.update f w phase w').Offers spec res)
    (hphase : ∀ res, ¬ phase.Offers spec res)
    : choice w = none := by
  cases hchoice : choice w with
  | none => rfl
  | some res =>
    have hw := hoffers w res hchoice
    rw [Function.update_self] at hw
    exact absurd hw (hphase res)

theorem Covered.respond (h : Covered spec obj cfg) {call : C} {res : R} (htaken : cfg.phase w = .taken call res)
    : Covered spec obj (cfg.respond w call res) := by
  intro ws choice hws hoffers
  have hnone : choice w = none := choice_eq_none hoffers (fun _ => not_false)
  have hbefore : AtomicObject.Reachable spec obj (cfg.resolve choice) := by
    apply h ws choice hws
    intro w' res' hres'
    have hw' := hoffers w' res' hres'
    have hne : w' ≠ w := by
      rintro rfl
      rw [hnone] at hres'
      contradiction
    unfold Config.respond at hw'
    dsimp only at hw'
    rwa [Function.update_of_ne hne] at hw'
  unfold Config.respond
  rw [resolve_update hnone]
  apply hbefore.step
  apply AtomicObject.Step.respond
  unfold Config.resolve
  dsimp only
  rw [htaken]
  rfl

theorem Covered.remember (h : Covered spec obj cfg) {call : C} {seen : S → Prop} {res : R} {o : S}
    (hpending : cfg.phase w = .pending call seen) (hseen : seen o) (hspec : spec o call res o)
    : Covered spec obj (cfg.remember w call res) := by
  intro ws choice hws hoffers
  have hnone : choice w = none := choice_eq_none hoffers (fun _ => not_false)
  have heq : (cfg.remember w call res).resolve choice = cfg.resolve (Function.update choice w (some res)) := by
    unfold Config.remember
    rw [resolve_update hnone]
    unfold Config.resolve
    dsimp only
    congr 1
    funext w'
    by_cases hne : w' = w
    . subst hne
      rw [Function.update_self, Function.update_self, hpending]
      rfl
    . rw [Function.update_of_ne hne, Function.update_of_ne hne]
  rw [heq]
  apply h (insert w ws)
  . intro w' hw'
    rw [Finset.mem_insert, not_or] at hw'
    rw [Function.update_of_ne hw'.1]
    exact hws w' hw'.2
  . intro w' res' hres'
    by_cases hne : w' = w
    . subst hne
      rw [Function.update_self, Option.some.injEq] at hres'
      subst hres'
      rw [hpending]
      exact ⟨o, hseen, hspec⟩
    . rw [Function.update_of_ne hne] at hres'
      have hw' := hoffers w' res' hres'
      unfold Config.remember at hw'
      dsimp only at hw'
      rwa [Function.update_of_ne hne] at hw'

theorem resolve_see (phase : Phase C R S) (o : S) (res : Option R) : (phase.see o).resolve res = phase.resolve res := by
  cases phase with
  | idle => rfl
  | pending call seen => cases res <;> rfl
  | taken call res => rfl

theorem Covered.take (h : Covered spec obj cfg) {call : C} {seen : S → Prop} {res : R} {o : S}
    (hpending : cfg.phase w = .pending call seen) (hspec : spec cfg.obj call res o)
    : Covered spec obj (cfg.take w call res o) := by
  classical
  intro ws choice hws hoffers
  have hnone : choice w = none := choice_eq_none hoffers (fun _ => not_false)
  -- those that could have had their moment before
  let early : W → Option R := fun w' =>
    match choice w' with
    | some res' => if (cfg.phase w').Offers spec res' then some res' else none
    | none => none
  have hearly : ∀ w' res', early w' = some res' → choice w' = some res' ∧ (cfg.phase w').Offers spec res' := by
    intro w' res' hres'
    dsimp only [early] at hres'
    split at hres'
    . next heq =>
      split at hres'
      . next hoffer =>
        cases hres'
        exact ⟨heq, hoffer⟩
      . contradiction
    . contradiction
  have hearlyNone : ∀ w', choice w' = none → early w' = none := by
    intro w' hw'
    dsimp only [early]
    rw [hw']
  have hbefore : AtomicObject.Reachable spec obj (cfg.resolve early) := by
    apply h ws
    . intro w' hw'
      exact hearlyNone w' (hws w' hw')
    . intro w' res' hres'
      exact (hearly w' res' hres').2
  have htake : AtomicObject.Reachable spec obj ((cfg.take w call res o).resolve early) := by
    have heq : (cfg.take w call res o).resolve early = (cfg.resolve early).take w call res o := by
      unfold Config.take Config.resolve AtomicObject.Config.take
      dsimp only
      congr 1
      funext w'
      by_cases hne : w' = w
      . subst hne
        rw [Function.update_self, Function.update_self, hearlyNone w' hnone]
        rfl
      . rw [Function.update_of_ne hne, Function.update_of_ne hne, resolve_see]
    rw [heq]
    apply hbefore.step
    apply AtomicObject.Step.take _ hspec
    unfold Config.resolve
    dsimp only
    rw [hpending, hearlyNone w hnone]
    rfl
  apply reachable_resolve early (ws.filter (fun w' => early w' = none)) htake
  . intro w' hw'
    refine ⟨(Finset.mem_filter.mp hw').2, ?_⟩
    intro res' hres'
    have hne : w' ≠ w := by
      rintro rfl
      rw [hnone] at hres'
      contradiction
    have hoffer := hoffers w' res' hres'
    unfold Config.take at hoffer ⊢
    dsimp only at hoffer ⊢
    rw [Function.update_of_ne hne] at hoffer ⊢
    rcases hoffer.see with hold | ⟨call', seen', hphase, hnow⟩
    . have hsome : early w' = some res' := by
        dsimp only [early]
        rw [hres']
        exact if_pos hold
      rw [(Finset.mem_filter.mp hw').2] at hsome
      contradiction
    . rw [hphase]
      exact ⟨call', _, rfl, hnow⟩
  . intro w' hw'
    rw [Finset.mem_filter, not_and] at hw'
    cases heq : early w' with
    | some res' => exact (hearly w' res' heq).1
    | none =>
      by_cases hmem : w' ∈ ws
      . exact absurd heq (hw' hmem)
      . exact hws w' hmem

theorem Reachable.covered (h : Reachable spec obj cfg) : Covered spec obj cfg := by
  induction h with
  | refl =>
    intro ws choice hws hoffers
    exact .refl
  | tail _ hlast ih =>
    rcases hlast with ⟨w, hstep⟩
    cases hstep with
    | invoke hidle => exact ih.invoke hidle
    | take hpending hspec => exact ih.take hpending hspec
    | remember hpending hseen hspec => exact ih.remember hpending hseen hspec
    | respond htaken => exact ih.respond htaken

theorem Reachable.linearizable (h : Reachable spec obj cfg) : Linearizable spec obj cfg.history :=
  ⟨cfg.resolve (fun _ => none), h.covered ∅ _ (fun _ _ => rfl) (by simp), rfl⟩

theorem Step.phase_of_ne {w' : W} (h : Step spec w cfg cfg') (hne : w' ≠ w)
    : cfg'.phase w' = cfg.phase w' ∧ cfg'.obj = cfg.obj
        ∨
      (∃ call res, spec cfg.obj call res cfg'.obj) ∧ cfg'.phase w' = (cfg.phase w').see cfg'.obj := by
  cases h with
  | invoke hidle => exact .inl ⟨Function.update_of_ne hne _ _, rfl⟩
  | take hpending hspec =>
    refine .inr ⟨⟨_, _, hspec⟩, ?_⟩
    unfold Config.take
    dsimp only
    rw [Function.update_of_ne hne]
  | remember hpending hseen hspec => exact .inl ⟨Function.update_of_ne hne _ _, rfl⟩
  | respond htaken => exact .inl ⟨Function.update_of_ne hne _ _, rfl⟩

/--
A machine with a history is linearizable if its steps are matched by steps of the object.
-/
theorem exists_reachable {σ ι : Type} {step : σ → ι → Option σ} {allowed : σ → ι → Prop} {s₀ s : σ} {labels : List ι}
    {I : σ → Config W C R S → Prop} (hinit : I s₀ (start obj))
    (hstep : ∀ s cfg label t, Reachable spec obj cfg → I s cfg → allowed s label → step s label = some t →
      ∃ cfg', Reachable spec obj cfg' ∧ I t cfg')
    (hrun : Run step allowed s₀ labels s)
    : ∃ cfg, Reachable spec obj cfg ∧ I s cfg := by
  apply hrun.invariant (I := fun s => ∃ cfg, Reachable spec obj cfg ∧ I s cfg)
  . exact ⟨_, .refl, hinit⟩
  . intro s label t h hallowed htake
    rcases h with ⟨cfg, hreach, hI⟩
    exact hstep s cfg label t hreach hI hallowed htake

end

end Observed

import GoYcsb.Generator.Lemmas.Session
import GoYcsb.Workload.Impl.Insert

/-!
This module contains the verification of the insert transactions from `GoYcsb.Workload.Impl.Insert`:
which key numbers up to `Last()` have been written.
-/

namespace Inserting

variable {W : Type u} [DecidableEq W]

@[simp]
theorem goto_pc (s : Inserting W) (w w' : W) (pc : InsertPC)
    : (s.goto w pc).pc w' = if w' = w then pc else s.pc w' := by
  simp [goto, Function.update_apply]

inductive Takes (fuel : Nat) (s : Inserting W) (label : Label W) (w : W) : Inserting W → Prop where
  | goto (pc : InsertPC) (hfresh : pc.fresh = (s.pc w).fresh) (hlate : pc.late = (s.pc w).late)
      (hearly : pc.early = (s.pc w).early) : Takes fuel s label w (s.goto w pc)
  | next (pc : Int → InsertPC) (hnext : s.IsNext label) (hfresh : ∀ keyNum, (pc keyNum).fresh = [keyNum])
      (hlate : ∀ keyNum, (pc keyNum).late = []) (hearly : ∀ keyNum, (pc keyNum).early = (s.pc w).early)
      : Takes fuel s label w (s.takeNext w pc)
  | written (keyNum : Int) (hpc : s.pc w = .inserting keyNum)
      : Takes fuel s label w (s.takeReturn w [keyNum] (.acknowledge keyNum))
  | batchWritten (keys : List Int) (hpc : s.pc w = .batchInserting keys)
      : Takes fuel s label w (s.takeReturn w keys .idle)
  | acknowledge (keyNum : Int) (session : Session) (hpc : s.pc w = .acknowledge keyNum)
      (hack : s.session.acknowledge fuel keyNum = .ret session)
      : Takes fuel s label w ({ s with session }.goto w .idle)
  | batchAcknowledge (left : Nat) (keyNum : Int) (keys : List Int) (session : Session)
      (hpc : s.pc w = .batchAcknowledge left keyNum keys)
      (hack : s.session.acknowledge fuel keyNum = .ret session)
      : Takes fuel s label w ({ s with session }.goto w (.batchNext left (keys ++ [keyNum])))

theorem takeAcknowledge_eq_some {fuel : Nat} {s t : Inserting W} {w : W} {keyNum : Int}
    {pc : InsertPC} (h : s.takeAcknowledge fuel w keyNum pc = some t)
    : ∃ session, s.session.acknowledge fuel keyNum = .ret session ∧ t = { s with session }.goto w pc := by
  unfold takeAcknowledge at h
  split at h
  . next session hack =>
    cases h
    exact ⟨session, hack, rfl⟩
  all_goals simp at h

theorem takes_of_step {fuel : Nat} {s t : Inserting W} {label : Label W}
    (h : s.step fuel label = some t)
    : ∃ w, Takes fuel s label w t := by
  cases label with
  | doTransactionInsert w =>
    simp only [step] at h
    split at h
    . next hidle =>
      cases h
      refine ⟨w, .next .insert trivial ?_ ?_ ?_⟩ <;> simp [hidle, InsertPC.fresh, InsertPC.late, InsertPC.early]
    . simp at h
  | doBatchTransactionInsert w batchSize =>
    simp only [step] at h
    split at h
    . next hidle =>
      cases h
      refine ⟨w, .goto _ ?_ ?_ ?_⟩ <;> simp [hidle, InsertPC.fresh, InsertPC.late, InsertPC.early]
    . simp at h
  | step w =>
    refine ⟨w, ?_⟩
    simp only [step] at h
    split at h
    . simp at h
    . next keyNum hpc =>
      cases h
      refine .goto _ ?_ ?_ ?_ <;> simp [hpc, InsertPC.fresh, InsertPC.late, InsertPC.early]
    . next keyNum hpc =>
      cases h
      exact .written keyNum hpc
    . next keyNum hpc =>
      rcases takeAcknowledge_eq_some h with ⟨session, hack, rfl⟩
      exact .acknowledge keyNum session hpc hack
    . next left keys hpc =>
      cases h
      refine .next _ ?_ ?_ ?_ ?_ <;> simp [hpc, InsertPC.fresh, InsertPC.late, InsertPC.early, IsNext]
    . next left keyNum keys hpc =>
      rcases takeAcknowledge_eq_some h with ⟨session, hack, rfl⟩
      exact .batchAcknowledge left keyNum keys session hpc hack
    . next keys hpc =>
      cases h
      refine .goto _ ?_ ?_ ?_ <;> simp [hpc, InsertPC.fresh, InsertPC.late, InsertPC.early]
    . next keys hpc =>
      cases h
      refine .goto _ ?_ ?_ ?_ <;> simp [hpc, InsertPC.fresh, InsertPC.late, InsertPC.early]
    . next keys hpc =>
      cases h
      exact .batchWritten keys hpc

end Inserting

def InsertPC.keys (pc : InsertPC) : List Int := pc.fresh ++ pc.late ++ pc.early

@[simp]
theorem InsertPC.mem_keys {pc : InsertPC} {n : Int}
    : n ∈ pc.keys ↔ (n ∈ pc.fresh ∨ n ∈ pc.late) ∨ n ∈ pc.early := by
  simp [keys, or_assoc]

namespace Inserting

variable {W : Type u}

structure Inv (recordCount : Int) (s : Inserting W) : Prop where
  session : Session.Inv recordCount s.session
  inWindow : Session.IssuedInWindow s.session
  fresh : ∀ w n, n ∈ (s.pc w).fresh →
    n ∈ s.session.issued ∧ n ∉ s.session.acked ∧ n ∉ s.returned
  late : ∀ w n, n ∈ (s.pc w).late → n ∈ s.session.issued ∧ n ∉ s.session.acked ∧ n ∈ s.returned
  early : ∀ w n, n ∈ (s.pc w).early → n ∈ s.session.issued ∧ n ∈ s.session.acked ∧ n ∉ s.returned
  unique : ∀ w w' n, n ∈ (s.pc w).keys → n ∈ (s.pc w').keys → w = w'
  covered : ∀ n, n ∈ s.session.acked → n ∈ s.returned ∨ ∃ w, n ∈ (s.pc w).early
  returned : ∀ n, n ∈ s.returned → n ∈ s.session.issued

theorem inv_new {recordCount : Int} (hstart : 1 ≤ recordCount) (hrange : recordCount < 2 ^ 63)
    : Inv recordCount (new recordCount : Inserting W) where
  session := Session.inv_new hstart hrange
  inWindow := Session.issuedInWindow_new hstart hrange
  fresh := by simp [new, InsertPC.fresh]
  late := by simp [new, InsertPC.late]
  early := by simp [new, InsertPC.early]
  unique := by simp [new, InsertPC.fresh, InsertPC.late, InsertPC.early]
  covered := by simp [new, Session.new]
  returned := by simp [new]

section Step

variable {recordCount : Int} {fuel : Nat} {s : Inserting W} {w : W}

theorem Inv.issued_of_keys (h : Inv recordCount s) {n : Int} (hn : n ∈ (s.pc w).keys)
    : n ∈ s.session.issued := by
  rcases InsertPC.mem_keys.mp hn with (hn | hn) | hn
  . exact (h.fresh w n hn).1
  . exact (h.late w n hn).1
  . exact (h.early w n hn).1

variable [DecidableEq W]

theorem Inv.status_goto {session : Session} {returned : List Int} {pc : InsertPC} (h : Inv recordCount s)
    (hissued : ∀ n, n ∈ s.session.issued → n ∈ session.issued)
    (hothers : ∀ n, n ∈ s.session.issued → n ∉ (s.pc w).keys →
      (n ∈ session.acked ↔ n ∈ s.session.acked) ∧ (n ∈ returned ↔ n ∈ s.returned))
    (held : InsertPC → List Int) (hheld : ∀ pc n, n ∈ held pc → n ∈ pc.keys) (Status : Prop → Prop → Prop)
    (hold : ∀ w n, n ∈ held (s.pc w) →
      n ∈ s.session.issued ∧ Status (n ∈ s.session.acked) (n ∈ s.returned))
    (hnew : ∀ n, n ∈ held pc → n ∈ session.issued ∧ Status (n ∈ session.acked) (n ∈ returned))
    (w' : W) (n : Int) (hn : n ∈ held (({ s with session, returned }.goto w pc).pc w'))
    : n ∈ session.issued ∧ Status (n ∈ session.acked) (n ∈ returned) := by
  rw [goto_pc] at hn
  split at hn
  . apply hnew n hn
  . next hne =>
    have hkeys := hheld _ n hn
    rcases hold w' n hn with ⟨hn, hstatus⟩
    have hsame := hothers n hn (fun hmine => hne (h.unique w' w n hkeys hmine))
    rw [hsame.1, hsame.2]
    exact ⟨hissued n hn, hstatus⟩

theorem Inv.move {session : Session} {returned : List Int} {pc : InsertPC} (h : Inv recordCount s)
    (hsession : Session.Inv recordCount session) (hwindow : Session.IssuedInWindow session)
    (hissued : ∀ n, n ∈ s.session.issued → n ∈ session.issued)
    (hothers : ∀ n, n ∈ s.session.issued → n ∉ (s.pc w).keys →
      (n ∈ session.acked ↔ n ∈ s.session.acked) ∧ (n ∈ returned ↔ n ∈ s.returned))
    (hkeys : ∀ n, n ∈ pc.keys → n ∈ (s.pc w).keys ∨ n ∉ s.session.issued)
    (hfresh : ∀ n, n ∈ pc.fresh → n ∈ session.issued ∧ n ∉ session.acked ∧ n ∉ returned)
    (hlate : ∀ n, n ∈ pc.late → n ∈ session.issued ∧ n ∉ session.acked ∧ n ∈ returned)
    (hearly : ∀ n, n ∈ pc.early → n ∈ session.issued ∧ n ∈ session.acked ∧ n ∉ returned)
    (hcovered : ∀ n, n ∈ session.acked → n ∈ s.session.acked ∨ n ∈ returned ∨ n ∈ pc.early)
    (hleft : ∀ n, n ∈ (s.pc w).early → n ∈ returned ∨ n ∈ pc.early)
    (hkept : ∀ n, n ∈ s.returned → n ∈ returned)
    (hreturned : ∀ n, n ∈ returned → n ∈ s.returned ∨ n ∈ (s.pc w).keys)
    : Inv recordCount ({ s with session, returned }.goto w pc) := by
  have hnew (w' : W) (n : Int) (hn : n ∈ pc.keys) (hn' : n ∈ (s.pc w').keys) : w' = w := by
    cases hkeys n hn with
    | inl hmine => exact h.unique w' w n hn' hmine
    | inr hnot => exact absurd (h.issued_of_keys hn') hnot
  refine
    {
      session := hsession
      inWindow := hwindow
      fresh :=
        h.status_goto hissued hothers InsertPC.fresh (fun _ _ hn => by simp [hn])
          (fun acked returned => ¬ acked ∧ ¬ returned) h.fresh hfresh
      late :=
        h.status_goto hissued hothers InsertPC.late (fun _ _ hn => by simp [hn])
          (fun acked returned => ¬ acked ∧ returned) h.late hlate
      early :=
        h.status_goto hissued hothers InsertPC.early (fun _ _ hn => by simp [hn])
          (fun acked returned => acked ∧ ¬ returned) h.early hearly
      unique := ?unique
      covered := ?covered
      returned := ?returned
    }
  case unique =>
    intro w1 w2 n h1 h2
    rw [goto_pc] at h1 h2
    split at h1
    . next heq1 =>
      split at h2
      . next heq2 => rw [heq1, heq2]
      . rw [heq1, hnew w2 n h1 h2]
    . split at h2
      . next heq2 => rw [heq2, hnew w1 n h2 h1]
      . apply h.unique w1 w2 n h1 h2
  case covered =>
    intro n hn
    have hmine (hn : n ∈ returned ∨ n ∈ pc.early)
        : n ∈ returned ∨ ∃ w', n ∈ (({ s with session, returned }.goto w pc).pc w').early := by
      cases hn with
      | inl hret => left; assumption
      | inr hearly => right; exact ⟨w, by simp [hearly]⟩
    cases hcovered n hn with
    | inr hn => apply hmine hn
    | inl hold =>
      rcases h.covered n hold with hret | ⟨w', hw'⟩
      . left
        apply hkept n hret
      . by_cases heq : w' = w
        . subst heq
          apply hmine
          apply hleft n hw'
        . right
          exact ⟨w', by simp [heq, hw']⟩
  case returned =>
    intro n hn
    cases hreturned n hn with
    | inl hold => apply hissued n (h.returned n hold)
    | inr hmine => apply hissued n (h.issued_of_keys hmine)

theorem Inv.next (h : Inv recordCount s) (hstart : 1 ≤ recordCount)
    (hwindow : s.session.InWindow .next) (hfits : s.session.CounterFits .next) {pc : Int → InsertPC}
    (hfresh : ∀ keyNum, (pc keyNum).fresh = [keyNum]) (hlate : ∀ keyNum, (pc keyNum).late = [])
    (hearly : ∀ keyNum, (pc keyNum).early = (s.pc w).early)
    : Inv recordCount (s.takeNext w pc) := by
  have hcounter := h.session.start_le_counter
  have hvalue : s.session.a.next.1 = s.session.a.c.counter := by
    unfold AcknowledgedCounter.next
    rw [Counter.next_eq hfits (by omega)]
  have hunused : s.session.a.next.1 ∉ s.session.issued := by
    rw [h.session.issued, hvalue]
    omega
  have honce : s.session.AcksOnce .next := trivial
  have htake : s.session.step (windowSize + 1) .next = some s.session.next := rfl
  have hinv := Session.inv_inWindow_step hstart (by omega) h.session h.inWindow honce hwindow hfits
    htake
  have hissued : s.session.next.issued = s.session.a.next.1 :: s.session.issued := rfl
  have hacked : s.session.next.acked = s.session.acked := rfl
  unfold takeNext
  apply h.move hinv.1 hinv.2
  . intro n hn
    simp [hissued, hn]
  . intro n _ _
    simp [hacked]
  . intro n hn
    rw [InsertPC.mem_keys, hfresh, hlate, hearly] at hn
    rcases hn with (hn | hn) | hn
    . right
      rw [List.mem_singleton] at hn
      rwa [hn]
    . simp at hn
    . left
      simp [hn]
  . intro n hn
    rw [hfresh, List.mem_singleton] at hn
    subst hn
    refine ⟨by simp [hissued], ?_, ?_⟩
    . intro hack
      exact hunused (h.session.acked _ hack)
    . intro hret
      exact hunused (h.returned _ hret)
  . intro n hn
    simp [hlate] at hn
  . intro n hn
    rw [hearly] at hn
    have hold := h.early w n hn
    exact ⟨by simp [hissued, hold.1], hold.2⟩
  . intro n hn
    left; assumption
  . intro n hn
    right
    rwa [hearly]
  . intro n hn
    assumption
  . intro n hn
    left; assumption

theorem Inv.takeReturn (h : Inv recordCount s) {keys : List Int} {pc : InsertPC}
    (hkeys : ∀ n, n ∈ keys → n ∈ (s.pc w).keys) (hlate : ∀ n, n ∈ pc.late → n ∈ keys)
    (hlate' : ∀ n, n ∈ pc.late → n ∈ (s.pc w).fresh) (hfresh : pc.fresh = []) (hearly : pc.early = [])
    (hcovered : ∀ n, n ∈ (s.pc w).early → n ∈ keys)
    : Inv recordCount (s.takeReturn w keys pc) := by
  unfold Inserting.takeReturn
  apply h.move h.session h.inWindow
  . intro n hn
    assumption
  . intro n _ hnot
    have hne := mt (hkeys n) hnot
    simp [hne]
  . intro n hn
    rw [InsertPC.mem_keys, hfresh, hearly] at hn
    simp only [List.not_mem_nil, false_or, or_false] at hn
    left
    simp [hlate' n hn]
  . simp [hfresh]
  . intro n hn
    have hold := h.fresh w n (hlate' n hn)
    exact ⟨hold.1, hold.2.1, by simp [hlate n hn]⟩
  . simp [hearly]
  . intro n hn
    left; assumption
  . intro n hn
    left
    simp [hcovered n hn]
  . intro n hn
    simp [hn]
  . intro n hn
    cases List.mem_append.mp hn with
    | inl hmine => right; exact hkeys n hmine
    | inr hold => left; assumption

theorem Inv.acknowledge (h : Inv recordCount s) (hstart : 1 ≤ recordCount) (hfuel : windowSize < fuel)
    {keyNum : Int} {session : Session} {pc : InsertPC}
    (hack : s.session.acknowledge fuel keyNum = .ret session)
    (hmine : keyNum ∈ (s.pc w).fresh ∨ keyNum ∈ (s.pc w).late) (hfresh : pc.fresh = [])
    (hlate : pc.late = [])
    (hearly : ∀ n, n ∈ pc.early ↔ n ∈ (s.pc w).early ∨ (n = keyNum ∧ n ∈ (s.pc w).fresh))
    : Inv recordCount ({ s with session }.goto w pc) := by
  have hkey : keyNum ∈ s.session.issued ∧ keyNum ∉ s.session.acked := by
    cases hmine with
    | inl hf => exact ⟨(h.fresh w _ hf).1, (h.fresh w _ hf).2.1⟩
    | inr hl => exact ⟨(h.late w _ hl).1, (h.late w _ hl).2.1⟩
  rcases Session.acknowledge_spec hstart hfuel h.session hkey.1 hkey.2
    (h.session.le_of_issued h.inWindow hkey.1) with ⟨t, ht, hinv, hacked, hissued, hc, hlimit⟩
  rw [hack] at ht
  cases ht
  have hwindow : Session.IssuedInWindow session := by
    have hold := h.inWindow
    unfold Session.IssuedInWindow at *
    rw [hc]
    omega
  apply h.move hinv hwindow
  . intro n hn
    rwa [hissued]
  . intro n _ hnot
    have hne : n ≠ keyNum := by
      intro heq
      subst heq
      apply hnot
      simp [hmine]
    simp [hacked, hne]
  . intro n hn
    rw [InsertPC.mem_keys, hfresh, hlate, hearly] at hn
    simp only [List.not_mem_nil, false_or] at hn
    left
    rcases hn with hn | ⟨_, hn⟩ <;> simp [hn]
  . simp [hfresh]
  . simp [hlate]
  . intro n hn
    rcases (hearly n).mp hn with hold | ⟨heq, hf⟩
    . have hstatus := h.early w n hold
      exact ⟨by rw [hissued]; exact hstatus.1, by simp [hacked, hstatus.2.1], hstatus.2.2⟩
    . have hstatus := h.fresh w n hf
      exact ⟨by rw [hissued]; exact hstatus.1, by simp [hacked, heq], hstatus.2.2⟩
  . intro n hn
    rw [hacked, List.mem_cons] at hn
    cases hn with
    | inl heq =>
      right
      subst heq
      cases hmine with
      | inl hf => right; exact (hearly n).mpr (.inr ⟨rfl, hf⟩)
      | inr hl => left; exact (h.late w n hl).2.2
    | inr hold => left; assumption
  . intro n hn
    right
    exact (hearly n).mpr (.inl hn)
  . intro n hn
    assumption
  . intro n hn
    left; assumption

theorem inv_step {label : Label W} {t : Inserting W} (hstart : 1 ≤ recordCount)
    (hfuel : windowSize < fuel) (h : Inv recordCount s) (hallowed : s.Allowed label)
    (htakes : Takes fuel s label w t)
    : Inv recordCount t := by
  cases htakes with
  | goto pc hfresh hlate hearly =>
    apply h.move h.session h.inWindow
    . intro n hn; assumption
    . intros; exact ⟨Iff.rfl, Iff.rfl⟩
    . intro n hn
      left
      simpa [hfresh, hlate, hearly] using hn
    . rw [hfresh]; exact h.fresh w
    . rw [hlate]; exact h.late w
    . rw [hearly]; exact h.early w
    . intro n hn; left; assumption
    . intro n hn
      right
      rwa [hearly]
    . intro n hn; assumption
    . intro n hn; left; assumption
  | next pc hnext hfresh hlate hearly =>
    have hok := hallowed hnext
    apply h.next hstart hok.1 hok.2 hfresh hlate hearly
  | written keyNum hpc =>
    apply h.takeReturn <;> simp [hpc, InsertPC.fresh, InsertPC.late, InsertPC.early]
  | batchWritten keys hpc =>
    apply h.takeReturn <;> simp [hpc, InsertPC.fresh, InsertPC.late, InsertPC.early]
  | acknowledge keyNum session hpc hack =>
    apply h.acknowledge hstart hfuel hack <;>
      simp [hpc, InsertPC.fresh, InsertPC.late, InsertPC.early]
  | batchAcknowledge left keyNum keys session hpc hack =>
    apply h.acknowledge hstart hfuel hack <;>
      simp [hpc, InsertPC.fresh, InsertPC.late, InsertPC.early]

end Step

section Run

variable {recordCount : Int} {fuel : Nat} {s t : Inserting W}

theorem inv_of_run [DecidableEq W] {labels : List (Label W)} (hstart : 1 ≤ recordCount)
    (hrange : recordCount < 2 ^ 63) (hfuel : windowSize < fuel)
    (hrun : Run (step fuel) Allowed (new recordCount) labels s)
    : Inv recordCount s := by
  apply hrun.invariant (inv_new hstart hrange)
  intro s label t h hallowed hstep
  rcases takes_of_step hstep with ⟨w, htakes⟩
  apply inv_step hstart hfuel h hallowed htakes

theorem Inv.returned_of_le_last (h : Inv recordCount s) (hearly : ∀ w, (s.pc w).early = []) {n : Int}
    (hge : recordCount ≤ n) (hle : n ≤ s.last)
    : n ∈ s.returned := by
  rcases h.covered n (h.session.covered n hge hle) with hret | ⟨w, hw⟩
  . assumption
  . rw [hearly w] at hw
    contradiction

end Run

end Inserting

def InsertPC.Empty (pc : InsertPC) : Prop :=
  match pc with
  | .batchNext left keys => left = 0 ∧ keys = []
  | .batchInsert keys | .batchInserting keys => keys = []
  | .batchAcknowledge _ _ _ => False
  | .idle | .insert _ | .inserting _ | .acknowledge _ => True

theorem InsertPC.Empty.early {pc : InsertPC} (h : pc.Empty) : pc.early = [] := by
  cases pc with
  | batchNext left keys => exact h.2
  | batchInsert keys => exact h
  | batchInserting keys => exact h
  | batchAcknowledge left keyNum keys => exact h.elim
  | idle => rfl
  | insert keyNum => rfl
  | inserting keyNum => rfl
  | acknowledge keyNum => rfl

namespace Inserting

section Empty

variable {W : Type u} [DecidableEq W] {recordCount : Int} {fuel : Nat} {s t : Inserting W}

theorem empty_goto {session : Session} {returned : List Int} {w : W} {pc : InsertPC}
    (h : ∀ w', (s.pc w').Empty) (hpc : pc.Empty)
    : ∀ w', (({ s with session, returned }.goto w pc).pc w').Empty := by
  intro w'
  rw [goto_pc]
  split
  . exact hpc
  . apply h

theorem empty_step {sizes : Nat → Prop} (hsizes : ∀ size, sizes size → size = 0) {label : Label W}
    (h : ∀ w, (s.pc w).Empty) (hbatch : label.BatchIn sizes) (hstep : s.step fuel label = some t)
    : ∀ w, (t.pc w).Empty := by
  cases label with
  | doTransactionInsert w =>
    simp only [step] at hstep
    split at hstep
    . cases hstep
      apply empty_goto h
      trivial
    . contradiction
  | doBatchTransactionInsert w batchSize =>
    simp only [step] at hstep
    split at hstep
    . cases hstep
      apply empty_goto h
      exact ⟨hsizes batchSize hbatch, rfl⟩
    . contradiction
  | step w =>
    have hw := h w
    simp only [step] at hstep
    split at hstep
    . contradiction
    . cases hstep
      apply empty_goto h
      trivial
    . cases hstep
      apply empty_goto h
      trivial
    . rcases takeAcknowledge_eq_some hstep with ⟨session, _, rfl⟩
      apply empty_goto h
      trivial
    . next hpc =>
      rw [hpc] at hw
      have hzero := hw.1
      contradiction
    . next hpc =>
      rw [hpc] at hw
      exact hw.elim
    . next hpc =>
      rw [hpc] at hw
      cases hstep
      apply empty_goto h
      exact hw.2
    . next hpc =>
      rw [hpc] at hw
      cases hstep
      apply empty_goto h
      exact hw
    . cases hstep
      apply empty_goto h
      trivial

-- The first key number of a batch is acknowledged before the batch takes the next one.
theorem exists_acknowledged_first (hstart : 1 ≤ recordCount) (hrange : recordCount + 1 < 2 ^ 63)
    (hfuel : windowSize < fuel) {sizes : Nat → Prop} {left : Nat} (hsize : sizes (left + 1)) (w : W)
    : ∃ s,
        Run (step fuel) (fun s label => s.Allowed label ∧ label.BatchIn sizes) (new recordCount)
          [.doBatchTransactionInsert w (left + 1), .step w, .step w] s
          ∧
        recordCount ≤ s.last
          ∧
        s.returned = [] := by
  have hsession := Session.inv_new hstart (by omega : recordCount < 2 ^ 63)
  have hfits : (Session.new recordCount).CounterFits .next := hrange
  have hnext := Session.inv_next hstart hsession hfits
  have hvalue : (Session.new recordCount).a.next.1 = recordCount := by
    unfold AcknowledgedCounter.next
    rw [Counter.next_eq hfits (by omega : (0 : Int) ≤ recordCount)]
    rfl
  have hwindow : (Session.new recordCount).InWindow .next := by
    have hlimit := hsession.start_le
    unfold Session.InWindow
    dsimp only
    rw [hvalue]
    unfold AcknowledgedCounter.last windowSize
    omega
  have hissued : recordCount ∈ (Session.new recordCount).next.issued := by
    apply List.mem_cons.mpr
    exact Or.inl hvalue.symm
  have hlimit : (Session.new recordCount).next.a.limit = (Session.new recordCount).a.limit := rfl
  have hle : recordCount ≤ (Session.new recordCount).next.a.limit + windowSize := by
    have hge := hsession.start_le
    unfold windowSize
    omega
  rcases Session.acknowledge_spec hstart hfuel hnext hissued List.not_mem_nil hle
    with ⟨session, hack, hinv, hacked, _⟩
  have hlast : recordCount ≤ session.a.last := by
    have hge := hinv.start_le
    have hstop := hinv.stop
    rw [hacked, List.mem_cons, not_or] at hstop
    unfold AcknowledgedCounter.last
    omega
  let s₁ : Inserting W := (new recordCount).goto w (.batchNext (left + 1) [])
  let s₂ : Inserting W := s₁.takeNext w (.batchAcknowledge left · [])
  let s₃ : Inserting W := { s₂ with session }.goto w (.batchNext left [recordCount])
  refine ⟨s₃, ?_, hlast, rfl⟩
  have hpc₁ : s₁.pc w = .batchNext (left + 1) [] := by
    rw [goto_pc, if_pos rfl]
  have hpc₂ : s₂.pc w = .batchAcknowledge left recordCount [] := by
    unfold s₂ takeNext
    rw [goto_pc, if_pos rfl]
    exact congrArg (InsertPC.batchAcknowledge left · []) hvalue
  have htake : s₂.takeAcknowledge fuel w recordCount (.batchNext left ([] ++ [recordCount]))
      = some s₃ := by
    have hack₂ : s₂.session.acknowledge fuel recordCount = .ret session := hack
    unfold takeAcknowledge
    rw [hack₂]
    rfl
  have hnext₂ : s₂.Allowed (.step w) := by
    intro h
    simp only [IsNext, hpc₂] at h
  refine .cons ⟨fun h => h.elim, hsize⟩ (t := s₁) rfl (.cons ⟨fun _ => ⟨hwindow, hfits⟩, trivial⟩ (t := s₂) ?_
    (.cons ⟨hnext₂, trivial⟩ ?_ .nil))
  . simp only [step]
    rw [hpc₁]
  . simp only [step]
    rw [hpc₂]
    exact htake

end Empty

/--
Key numbers up to `Last()` are those of calls that have returned, in every state of every run, exactly if no batch with
a key is run.
-/
theorem returned_of_le_last_iff {W : Type u} [DecidableEq W] [Nonempty W] {recordCount : Int} {fuel : Nat}
    (hstart : 1 ≤ recordCount) (hrange : recordCount + 1 < 2 ^ 63) (hfuel : windowSize < fuel) (sizes : Nat → Prop)
    : (∀ labels (s : Inserting W),
        Run (step fuel) (fun s label => s.Allowed label ∧ label.BatchIn sizes) (new recordCount) labels s →
          ∀ n, recordCount ≤ n → n ≤ s.last → n ∈ s.returned)
        ↔
      ∀ size, sizes size → size = 0 := by
  constructor
  . intro hreturned size hsize
    cases size with
    | zero => rfl
    | succ left =>
      rcases exists_acknowledged_first hstart hrange hfuel hsize (Classical.arbitrary W) with ⟨s, hrun, hlast, hempty⟩
      have hmem := hreturned _ s hrun recordCount (Int.le_refl _) hlast
      rw [hempty] at hmem
      contradiction
  . intro hsizes labels s hrun n hge hle
    have hinv := inv_of_run hstart (by omega) hfuel (hrun.mono (fun _ _ h => h.1))
    have hpcs : ∀ w, (s.pc w).Empty := by
      apply hrun.invariant (I := fun s => ∀ w, (s.pc w).Empty) (fun _ => trivial)
      intro s label t h hallowed hstep
      exact empty_step hsizes h hallowed.2 hstep
    exact hinv.returned_of_le_last (fun w => (hpcs w).early) hge hle

-- Two workers, the second key number is acknowledged first. A batch without keys does no harm.
theorem returned_of_le_last_iff_singles
    : ∃ s : Inserting Bool,
        Run (step (windowSize + 1)) (fun s label => s.Allowed label ∧ label.BatchIn (· = 0)) (new 1)
          [.doTransactionInsert false, .doTransactionInsert true, .step true, .step true, .step true,
            .doBatchTransactionInsert true 0, .step true, .step false, .step false, .step false] s
          ∧
        s.last = 2
          ∧
        ∀ n, 1 ≤ n → n ≤ s.last → n ∈ s.returned := by
  have hexec : (Run.exec (step (windowSize + 1)) (fun s label => s.Allowed label ∧ label.BatchIn (· = 0))
      (new 1 : Inserting Bool)
      [.doTransactionInsert false, .doTransactionInsert true, .step true, .step true, .step true,
        .doBatchTransactionInsert true 0, .step true, .step false, .step false, .step false]).any
      (fun s => s.last = 2) := by
    decide +kernel
  rcases Run.exists_of_exec _ hexec with ⟨s, hrun, hlast⟩
  rw [decide_eq_true_eq] at hlast
  have hfuel : windowSize < windowSize + 1 := by decide
  have hall := (returned_of_le_last_iff (W := Bool) (Int.le_refl 1) (by decide) hfuel (· = 0)).mpr (fun _ => id)
  exact ⟨s, hrun, hlast, hall _ s hrun⟩

-- The only key number of a batch is reported before its `BatchInsert` has started.
theorem acknowledged_before_written
    : ∃ s : Inserting Unit,
        Run (step (windowSize + 1)) Allowed (new 1)
          [.doBatchTransactionInsert () 1, .step (), .step ()] s
          ∧
        1 ≤ s.last
          ∧
        1 ∉ s.returned := by
  have hexec : (Run.exec (step (windowSize + 1)) Allowed (new 1 : Inserting Unit)
      [.doBatchTransactionInsert () 1, .step (), .step ()]).any
        (fun s => 1 ≤ s.last && 1 ∉ s.returned) := by
    decide +kernel
  rcases Run.exists_of_exec _ hexec with ⟨s, hrun, hp⟩
  simp only [Bool.and_eq_true, decide_eq_true_eq] at hp
  exact ⟨s, hrun, hp.1, hp.2⟩

end Inserting

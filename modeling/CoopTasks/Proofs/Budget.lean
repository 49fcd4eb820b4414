import CoopTasks.Proofs.Clock
import CoopTasks.Proofs.Faults
import CoopTasks.Proofs.Order
import CoopTasks.Proofs.Quiescence

/-!
# Runs that are cut short

The budget decides where a run stops and nothing else. A run that uses it up leaves what was queued,
so running again as often as it takes is the same as running once with a budget that is large
enough.
-/

namespace CoopTasks

variable {P R W : Type}

/-- The host with another budget of steps. -/
def Host.withBudget (h : Host P R W) (limit : Nat) : Host P R W :=
  { h with config := { h.config with maxSteps := limit } }

namespace Scheduler

variable {s s' r : Scheduler P R W} {h : Host P R W}
variable {limit limit' left left' : Nat} {e : HostError}
variable {log : List (Scheduler P R W × Move P)} {reply : Reply P R W Unit}

/-! ## Steps do not look at the budget -/

theorem settleWithin_withBudget (h : Host P R W) (limit fuel : Nat) (id : TaskId)
    (s : Scheduler P R W) :
    settleWithin (h.withBudget limit) fuel id s = settleWithin h fuel id s := by
  induction fuel generalizing id s with
  | zero => rfl
  | succ fuel ih =>
    have hretire : ∀ t, s.retire (h.withBudget limit) id t = s.retire h id t := fun _ => rfl
    simp only [settleWithin, hretire, ih]

theorem finish_withBudget (s : Scheduler P R W) (h : Host P R W) (limit : Nat) (id : TaskId)
    (outcome : Outcome) : s.finish (h.withBudget limit) id outcome = s.finish h id outcome := by
  simp only [finish, settle, settleWithin_withBudget]

theorem carryOut_withBudget (s : Scheduler P R W) (h : Host P R W) (limit : Nat) (id : TaskId)
    (effect : Effect P W) : s.carryOut (h.withBudget limit) id effect = s.carryOut h id effect := by
  cases effect <;> rfl

theorem dispatch_withBudget (s : Scheduler P R W) (h : Host P R W) (limit : Nat) (id : TaskId)
    (effect : Effect P W) : s.dispatch (h.withBudget limit) id effect = s.dispatch h id effect := by
  have hnote : s.note (h.withBudget limit) id effect = s.note h id effect := rfl
  simp only [dispatch, violate, hnote, finish_withBudget, carryOut_withBudget]

theorem step_withBudget (s : Scheduler P R W) (h : Host P R W) (limit : Nat) (id : TaskId)
    (input : Input) : s.step (h.withBudget limit) id input = s.step h id input := by
  have hresume : (h.withBudget limit).program.resume = h.program.resume := rfl
  simp only [step, hresume, dispatch_withBudget, finish_withBudget]

theorem stepNext?_withBudget (s : Scheduler P R W) (h : Host P R W) (limit : Nat) :
    s.stepNext? (h.withBudget limit) = s.stepNext? h := by
  simp only [stepNext?, step_withBudget]

theorem move_withBudget (s : Scheduler P R W) (h : Host P R W) (limit : Nat) (m : Move P) :
    s.move (h.withBudget limit) m = s.move h m := by
  cases m with
  | step => simp only [move, stepNext?_withBudget]
  | _ => rfl

theorem history_withBudget (s : Scheduler P R W) (h : Host P R W) (limit : Nat)
    (ms : List (Move P)) : s.history (h.withBudget limit) ms = s.history h ms := by
  induction ms generalizing s with
  | nil => rfl
  | cons m ms ih => rw [history, history, move_withBudget, ih]

theorem run_withBudget (s : Scheduler P R W) (h : Host P R W) (budget : Nat) :
    s.run (h.withBudget budget) = runWithin h budget budget s := by
  have hwithin : ∀ left (s : Scheduler P R W),
      runWithin (h.withBudget budget) budget left s = runWithin h budget left s := by
    intro left
    induction left with
    | zero => exact fun _ => rfl
    | succ left ih => exact fun s => by simp only [runWithin, stepNext?_withBudget, ih]
  exact hwithin budget s

theorem runTrail_withBudget (s : Scheduler P R W) (h : Host P R W) (budget : Nat) :
    s.runTrail (h.withBudget budget) = runTrailWithin h budget s := by
  have hwithin : ∀ left (s : Scheduler P R W),
      runTrailWithin (h.withBudget budget) left s = runTrailWithin h left s := by
    intro left
    induction left with
    | zero => exact fun _ => rfl
    | succ left ih => exact fun s => by simp only [runTrailWithin, stepNext?_withBudget, ih]
  exact hwithin budget s

/-! ## Where a run stops -/

/-- A run that was not cut short ended well, or with a breach of the contract. -/
def Ends (reply : Reply P R W Unit) : Prop :=
  reply.1 = .ok () ∨ ∃ task violation, reply.1 = .error (.protocol task violation)

theorem not_ends (limit : Nat) (s : Scheduler P R W) :
    ¬Ends (.error (.stepBudgetExhausted limit), s) := by
  rintro (heq | ⟨task, violation, heq⟩) <;> cases heq

theorem ends_ok (s : Scheduler P R W) : Ends (.ok (), s) := Or.inl rfl

theorem ends_protocol (task : Option TaskId) (violation : Violation) (s : Scheduler P R W) :
    Ends (.error (.protocol task violation), s) :=
  Or.inr ⟨task, violation, rfl⟩

/-- What is wrong with a completion is that its operation was never issued. -/
theorem unknown_of_applyCompletion {c : Completion} (hs : s.applyCompletion c = (.error e, r)) :
    e = .protocol none (.unknownOperation c.operation) ∧
      s.pending.nextId ≤ c.operation.val := by
  unfold applyCompletion at hs
  split at hs
  · dsimp only at hs
    split at hs <;> cases hs
  · split at hs <;> cases hs
    rename_i hstale
    exact ⟨rfl, by simpa [Pending.isStale] using hstale⟩

theorem unknown_of_applyAll {cs : List Completion} (hs : s.applyAll cs = (.error e, r)) :
    ∃ op, e = .protocol none (.unknownOperation op) ∧ s.pending.nextId ≤ op.val := by
  induction cs generalizing s with
  | nil => cases hs
  | cons c rest ih =>
    simp only [applyAll] at hs
    cases hr : s.receive c rest with
    | mk answer s' =>
      rw [hr] at hs
      cases answer with
      | ok u =>
        have hnext : (s.receive c rest).2.pending.nextId = s.pending.nextId :=
          (wanes_applyCompletion _ c).pending.next
        obtain ⟨op, heq, hop⟩ := ih hs
        rw [hr] at hnext
        exact ⟨op, heq, hnext ▸ hop⟩
      | error e' =>
        cases hs
        rw [receive] at hr
        have hunknown := unknown_of_applyCompletion hr
        exact ⟨_, hunknown⟩

theorem applyInbox_cases (hs : s.fault = none) (h : Host P R W) :
    (∃ r, s.applyInbox = (.ok (), r) ∧ r.pending.inbox = [] ∧ r.fault = none) ∨
      ∃ op r, s.applyInbox = (.error (.protocol none (.unknownOperation op)), r) := by
  have hfault := fault_moves hs h s.inboxTrail
  rw [← applyInbox_moves] at hfault
  cases happly : s.applyInbox with
  | mk answer r =>
    rw [happly] at hfault
    cases answer with
    | ok u => exact Or.inl ⟨r, rfl, inbox_of_applyAll _ rfl happly, hfault⟩
    | error e =>
      obtain ⟨op, rfl, -⟩ := unknown_of_applyAll happly
      exact Or.inr ⟨op, r, rfl⟩

theorem applyInbox_of_nil (hs : s.pending.inbox = []) :
    s.applyInbox = (.ok (), s) ∧ s.inboxTrail = [] := by
  rw [applyInbox, inboxTrail, hs]
  exact ⟨rfl, rfl⟩

theorem stepNext?_of_nil (h : Host P R W) (hs : s.queue = []) : s.stepNext? h = none := by
  rw [stepNext?, hs]

/-- A step leaves no fault. If it stops the run, it was a breach of the contract. -/
theorem stepNext?_cases (hs : s.fault = none) (hq : s.queue ≠ []) :
    (∃ r, s.stepNext? h = some (.ok (), r) ∧ r.fault = none) ∨
      ∃ task violation r, s.stepNext? h = some (.error (.protocol task violation), r) := by
  cases hnext : s.stepNext? h with
  | none =>
    obtain ⟨entry, rest, hcons⟩ := List.exists_cons_of_ne_nil hq
    rw [stepNext?, hcons] at hnext
    cases hnext
  | some next =>
    have hfault := fault_move hs h .step
    rw [move, hnext] at hfault
    obtain ⟨answer, r⟩ := next
    cases answer with
    | ok u => exact Or.inl ⟨r, rfl, hfault⟩
    | error e =>
      obtain ⟨id, violation, rfl⟩ := protocol_of_step hs hnext
      exact Or.inr ⟨some id, violation, r, rfl⟩

/-- With no step left a run is cut short in `r`, and taken up from there. -/
structure Pauses (h : Host P R W) (s r : Scheduler P R W) : Prop where
  cut : ∀ limit, runWithin h limit 0 s = (.error (.stepBudgetExhausted limit), r)
  resume : ∀ limit left, runWithin h limit left s = runWithin h limit left r
  trail : ∀ left, runTrailWithin h left s = runTrailWithin h 0 s ++ runTrailWithin h left r
  fault : r.fault = none

/-- What a run does first. Either it ends without a step, whatever the budget, or there is something
to step, and the run is stopped by this step or goes on after it. -/
inductive Round (h : Host P R W) (s : Scheduler P R W) : Prop where
  | ended {reply : Reply P R W Unit} : Ends reply →
      (∀ limit left, runWithin h limit left s = reply) →
      (∀ left, runTrailWithin h left s = s.inboxTrail) → Round h s
  | stopped {r : Scheduler P R W} {reply : Reply P R W Unit} : Pauses h s r → Ends reply →
      (∀ limit left, runWithin h limit (left + 1) s = reply) →
      (∀ left, runTrailWithin h (left + 1) s = s.inboxTrail ++ [.step]) → Round h s
  | stepped {r s' : Scheduler P R W} : Pauses h s r → s'.fault = none →
      (s.moves h s.inboxTrail).move h .step = s' →
      (∀ limit left, runWithin h limit (left + 1) s = runWithin h limit left s') →
      (∀ left, runTrailWithin h (left + 1) s = s.inboxTrail ++ .step :: runTrailWithin h left s') →
      Round h s

theorem pauses (happly : s.applyInbox = (.ok (), r)) (hinbox : r.pending.inbox = [])
    (hfault : r.fault = none) (hq : r.queue ≠ []) (h : Host P R W) : Pauses h s r := by
  obtain ⟨hagain, hnone⟩ := applyInbox_of_nil hinbox
  refine ⟨fun limit => ?_, fun limit left => ?_, fun left => ?_, hfault⟩
  · simp [runWithin, happly, hq]
  · cases left <;> simp [runWithin, happly, hagain]
  · cases left <;> simp [runTrailWithin, happly, hagain, hnone]

theorem round_cases (hs : s.fault = none) (h : Host P R W) : Round h s := by
  rcases applyInbox_cases hs h with ⟨r, happly, hinbox, hfault⟩ | ⟨op, r, happly⟩
  · by_cases hq : r.queue = []
    · refine .ended (ends_ok r) (fun limit left => ?_) fun left => ?_
      · cases left <;> simp [runWithin, happly, hq, stepNext?_of_nil h hq]
      · cases left <;> simp [runTrailWithin, happly, stepNext?_of_nil h hq]
    · have hpause := pauses happly hinbox hfault hq h
      rcases stepNext?_cases (h := h) hpause.fault hq with
        ⟨r', hstep, hnone⟩ | ⟨task, violation, r', hstep⟩
      · have hinboxMoves := applyInbox_moves s h
        rw [happly] at hinboxMoves
        have hmove : (s.moves h s.inboxTrail).move h .step = r' := by
          rw [← hinboxMoves, move, hstep]
          rfl
        refine .stepped hpause hnone hmove (fun limit left => ?_) fun left => ?_
        · simp [runWithin, happly, hstep]
        · simp [runTrailWithin, happly, hstep]
      · have hends := ends_protocol task violation r'
        refine .stopped hpause hends (fun limit left => ?_) fun left => ?_
        · simp [runWithin, happly, hstep]
        · simp [runTrailWithin, happly, hstep]
  · have hends := ends_protocol none (.unknownOperation op) r
    refine .ended hends (fun limit left => ?_) fun left => ?_
    · cases left <;> simp [runWithin, happly]
    · cases left <;> simp [runTrailWithin, happly]

/-- A run ends, or is cut short when its budget is used up. -/
theorem runWithin_ends_or (hs : s.fault = none) (h : Host P R W) (limit left : Nat) :
    Ends (runWithin h limit left s) ∨
      ∃ r, runWithin h limit left s = (.error (.stepBudgetExhausted limit), r) := by
  induction left generalizing s with
  | zero =>
    cases round_cases hs h with
    | ended hends hrun => exact Or.inl (hrun limit 0 ▸ hends)
    | stopped hpause => exact Or.inr ⟨_, hpause.cut limit⟩
    | stepped hpause => exact Or.inr ⟨_, hpause.cut limit⟩
  | succ left ih =>
    cases round_cases hs h with
    | ended hends hrun => exact Or.inl (hrun limit _ ▸ hends)
    | stopped hpause hends hrun => exact Or.inl (hrun limit left ▸ hends)
    | stepped hpause hfault hmove hrun =>
      rw [hrun limit left]
      exact ih hfault

/-- To a run that ends a larger budget makes no difference. -/
theorem runWithin_of_le (hs : s.fault = none) (hle : left ≤ left')
    (hends : Ends (runWithin h limit left s)) :
    runWithin h limit' left' s = runWithin h limit left s ∧
      runTrailWithin h left' s = runTrailWithin h left s := by
  induction left generalizing left' s with
  | zero =>
    cases round_cases hs h with
    | ended hends hrun htrail => exact ⟨by rw [hrun, hrun], by rw [htrail, htrail]⟩
    | stopped hpause => exact absurd (hpause.cut limit ▸ hends) (not_ends _ _)
    | stepped hpause => exact absurd (hpause.cut limit ▸ hends) (not_ends _ _)
  | succ left ih =>
    have hpos : left' ≠ 0 := by omega
    obtain ⟨left', rfl⟩ := Nat.exists_eq_succ_of_ne_zero hpos
    cases round_cases hs h with
    | ended hends hrun htrail => exact ⟨by rw [hrun, hrun], by rw [htrail, htrail]⟩
    | stopped hpause hends hrun htrail => exact ⟨by rw [hrun, hrun], by rw [htrail, htrail]⟩
    | stepped hpause hfault hmove hrun htrail =>
      rw [hrun] at hends
      obtain ⟨hreply, hmoves⟩ := ih hfault (Nat.le_of_succ_le_succ hle) hends
      exact ⟨by rw [hrun, hrun, hreply], by rw [htrail, htrail, hmoves]⟩

/-- A run that is cut short is taken up where it was: what was left of a larger budget suffices for
the rest of it. -/
theorem runWithin_add (hs : s.fault = none)
    (hcut : runWithin h limit left s = (.error (.stepBudgetExhausted limit), r)) :
    r.fault = none ∧ ∀ more limit', runWithin h limit' (left + more) s = runWithin h limit' more r ∧
      runTrailWithin h (left + more) s = runTrailWithin h left s ++ runTrailWithin h more r := by
  induction left generalizing s with
  | zero =>
    have hpause : Pauses h s r := by
      cases round_cases hs h with
      | ended hends hrun => exact absurd (hcut ▸ hrun limit 0 ▸ hends) (not_ends _ _)
      | stopped hpause => cases (hpause.cut limit).symm.trans hcut; exact hpause
      | stepped hpause => cases (hpause.cut limit).symm.trans hcut; exact hpause
    refine ⟨hpause.fault, fun more limit' => ?_⟩
    rw [Nat.zero_add]
    exact ⟨hpause.resume limit' more, hpause.trail more⟩
  | succ left ih =>
    cases round_cases hs h with
    | ended hends hrun => exact absurd (hcut ▸ hrun limit _ ▸ hends) (not_ends _ _)
    | stopped hpause hends hrun => exact absurd (hcut ▸ hrun limit left ▸ hends) (not_ends _ _)
    | stepped hpause hfault hmove hrun htrail =>
      rw [hrun] at hcut
      obtain ⟨hnone, hrest⟩ := ih hfault hcut
      refine ⟨hnone, fun more limit' => ?_⟩
      obtain ⟨hreply, hmoves⟩ := hrest more limit'
      rw [Nat.succ_add, hrun, htrail, htrail, hmoves]
      exact ⟨hreply, by simp⟩

/-! ## Steps of a run -/

theorem turns_of_receive {ms : List (Move P)} (hms : ∀ m ∈ ms, m = .receive) :
    turns (s.history h ms) = [] := by
  refine List.filterMap_eq_nil_iff.2 fun entry he => ?_
  rw [served?, hms entry.2 (move_mem_of_history he)]

/-- A step takes one entry off the queue at most. -/
theorem turns_step_cons (ms : List (Move P)) :
    (turns (s.history h (.step :: ms))).length ≤
      (turns ((s.move h .step).history h ms)).length + 1 := by
  rw [history, turns_cons]
  cases served? (s, (.step : Move P)) <;> simp

/-- No more entries are taken off the queue than the budget allows. -/
theorem turns_runWithin (hs : s.fault = none) (h : Host P R W) (left : Nat) :
    (turns (s.history h (runTrailWithin h left s))).length ≤ left := by
  have hinbox : ∀ s : Scheduler P R W, turns (s.history h s.inboxTrail) = [] := fun s =>
    turns_of_receive fun _ hm => mem_applyTrail hm
  induction left generalizing s with
  | zero =>
    rw [runTrailWithin, hinbox]
    exact Nat.le_refl 0
  | succ left ih =>
    cases round_cases hs h with
    | ended hends hrun htrail =>
      rw [htrail, hinbox]
      exact Nat.zero_le _
    | stopped hpause hends hrun htrail =>
      rw [htrail, history_append, turns_append, hinbox, List.nil_append]
      exact Nat.le_trans (turns_step_cons []) (Nat.succ_le_succ (Nat.zero_le left))
    | stepped hpause hfault hmove hrun htrail =>
      rw [htrail, history_append, turns_append, hinbox, List.nil_append]
      refine Nat.le_trans (turns_step_cons _) (Nat.succ_le_succ ?_)
      rw [hmove]
      exact ih hfault

/-! ## Running again -/

/-- Runs one after the other, each of them taking up what the one before was cut short in. The last
one ends, and that is the answer. -/
inductive Rounds (h : Host P R W) :
    Scheduler P R W → List (Scheduler P R W × Move P) → Reply P R W Unit → Prop where
  | last {s : Scheduler P R W} : Ends (s.run h) → Rounds h s (s.history h (s.runTrail h)) (s.run h)
  | again {s r : Scheduler P R W} {log : List (Scheduler P R W × Move P)}
      {reply : Reply P R W Unit} :
      s.run h = (.error (.stepBudgetExhausted h.config.maxSteps), r) → Rounds h r log reply →
      Rounds h s (s.history h (s.runTrail h) ++ log) reply

theorem Rounds.unique {log' : List (Scheduler P R W × Move P)} {reply' : Reply P R W Unit}
    (hs : Rounds h s log reply) (hs' : Rounds h s log' reply') : log = log' ∧ reply = reply' := by
  induction hs generalizing log' with
  | last hends =>
    cases hs' with
    | last => exact ⟨rfl, rfl⟩
    | again hcut => exact absurd (hcut ▸ hends) (not_ends _ _)
  | again hcut _ ih =>
    cases hs' with
    | last hends => exact absurd (hcut ▸ hends) (not_ends _ _)
    | again hcut' hrest =>
      cases hcut.symm.trans hcut'
      obtain ⟨rfl, rfl⟩ := ih hrest
      exact ⟨rfl, rfl⟩

/-- With any budget running again comes to the end that a run comes to. -/
theorem rounds_runWithin (hs : s.fault = none) (hlimit : 1 ≤ limit) (left : Nat)
    (hends : Ends (runWithin h limit' left s)) :
    Rounds (h.withBudget limit) s (s.history h (runTrailWithin h left s))
      (runWithin h limit' left s) := by
  induction left using Nat.strongRecOn generalizing s with
  | ind left ih =>
    have hrun := run_withBudget s h limit
    have htrail := runTrail_withBudget s h limit
    rcases runWithin_ends_or hs h limit limit with hfirst | ⟨r, hcut⟩
    · -- both budgets are large enough
      have hsame : runWithin h limit' left s = runWithin h limit limit s ∧
          runTrailWithin h left s = runTrailWithin h limit s := by
        rcases Nat.le_total limit left with hle | hle
        · exact runWithin_of_le hs hle hfirst
        · obtain ⟨hreply, hmoves⟩ := runWithin_of_le hs hle hends
          exact ⟨hreply.symm, hmoves.symm⟩
      rw [hsame.1, hsame.2, ← hrun, ← htrail, ← history_withBudget s h limit]
      exact .last (hrun ▸ hfirst)
    · have hlt : limit ≤ left := by
        refine Nat.le_of_not_lt fun hlt => not_ends limit r ?_
        rw [← hcut, (runWithin_of_le hs (Nat.le_of_lt hlt) hends).1]
        exact hends
      obtain ⟨more, rfl⟩ := Nat.exists_eq_add_of_le hlt
      obtain ⟨hnone, hrest⟩ := runWithin_add hs hcut
      obtain ⟨hreply, hmoves⟩ := hrest more limit'
      rw [hreply] at hends ⊢
      have hmore := ih more (by omega) hnone hends
      have hstate : s.moves h (runTrailWithin h limit s) = r := by
        rw [← runWithin_moves h limit, hcut]
      rw [hmoves, history_append, hstate, ← htrail, ← history_withBudget s h limit]
      exact .again (hrun.trans hcut) hmore

/-- A run takes no more steps than the budget has, and a budget that is too small loses nothing.
Where a larger one lets a run end, the run ends in the same way or is cut short, and to run again
until it ends is to make the same moves, each in the same state, and to come to the same answer. So
the observers see the same, and the same is entered into the journal. -/
theorem Run.budget_loses_nothing (run : Run h log s) (hlimit : 1 ≤ limit) :
    (turns (s.history (h.withBudget limit) (s.runTrail (h.withBudget limit)))).length ≤ limit ∧
      ∀ larger, limit ≤ larger → Ends (s.run (h.withBudget larger)) →
        (s.run (h.withBudget limit) = s.run (h.withBudget larger) ∨
          (s.run (h.withBudget limit)).1 = .error (.stepBudgetExhausted limit)) ∧
        ∀ moves reply, Rounds (h.withBudget limit) s moves reply ↔
          moves = s.history (h.withBudget larger) (s.runTrail (h.withBudget larger)) ∧
            reply = s.run (h.withBudget larger) := by
  have hs := run.fault
  rw [history_withBudget, runTrail_withBudget, run_withBudget]
  refine ⟨turns_runWithin hs h limit, fun larger hle hends => ?_⟩
  rw [run_withBudget] at hends
  rw [history_withBudget, runTrail_withBudget, run_withBudget]
  have hrounds := rounds_runWithin hs hlimit larger hends
  refine ⟨?_, fun moves reply => ⟨fun hmoves => hmoves.unique hrounds, ?_⟩⟩
  · rcases runWithin_ends_or hs h limit limit with hfirst | ⟨r, hcut⟩
    · exact Or.inl (runWithin_of_le hs hle hfirst).1.symm
    · exact Or.inr (by rw [hcut])
  · rintro ⟨rfl, rfl⟩
    exact hrounds

/-- Three listeners are queued. -/
def audience : Scheduler Demo (Demo × Nat) Unit :=
  demoAfter [.enroll .listener [], .enroll .listener [], .enroll .listener []]

/-- With a budget of one step the listeners take three runs, of which two are cut short. -/
theorem budget_loses_nothing_audience :
    ∃ log, Run demo log audience ∧ Ends (audience.run (demo.withBudget 8)) ∧
      (audience.run (demo.withBudget 1)).1 = .error (.stepBudgetExhausted 1) ∧
      ((audience.run (demo.withBudget 1)).2.run (demo.withBudget 1)).1 =
        .error (.stepBudgetExhausted 1) ∧
      Rounds (demo.withBudget 1) audience
        (audience.history (demo.withBudget 8) (audience.runTrail (demo.withBudget 8)))
        (audience.run (demo.withBudget 8)) := by
  have run := demoAfter_run [.enroll .listener [], .enroll .listener [], .enroll .listener []]
  have hends : Ends (audience.run (demo.withBudget 8)) := Or.inl rfl
  obtain ⟨-, hall⟩ := run.budget_loses_nothing (Nat.le_refl 1)
  obtain ⟨-, hrounds⟩ := hall 8 (by decide) hends
  exact ⟨_, run, hends, rfl, rfl, (hrounds _ _).2 ⟨rfl, rfl⟩⟩

end Scheduler

end CoopTasks

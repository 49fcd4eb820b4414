import CoopTasks.Proofs.Frame

/-!
# Runs of a scheduler

All that ever happens to a scheduler is a sequence of moves: the step of a task is one, and so is
what a call of the host does before it lets the tasks run. A `Run` is any sequence of moves from the
beginning, so what holds along every run holds at the end of every call, well or in error, and
between any two steps inside of it.
-/

namespace CoopTasks

inductive Move (P : Type) where
  | enroll (process : P) (args : List Value)
  | announce (n : Notification)
  /-- The host delivers a completion. -/
  | deliver (c : Completion)
  /-- A completion is queued from outside. -/
  | queue (c : Completion)
  /-- The run takes the first queued completion. -/
  | receive
  | cancel (id : TaskId)
  /-- The first task of the queue is stepped. -/
  | step
  /-- A timer is taken out of the index. -/
  | expire (timer : Nat × OperationId)
  | setClock (now : Nat)
  | takeUnhandled
  | dropJournal

/-- The calls of the host that let the tasks run. -/
inductive Call (P : Type) where
  | start (process : P) (args : List Value)
  | notify (n : Notification)
  | complete (c : Completion)
  | run
  | cancel (id : TaskId)
  | advance (ms fuel : Nat)

namespace Scheduler

variable {P R W : Type} {s s' : Scheduler P R W} {h : Host P R W}

def move (s : Scheduler P R W) (h : Host P R W) : Move P → Scheduler P R W
  | .enroll process args => (s.enroll h process args).2
  | .announce n => s.announce h n
  | .deliver c => (s.applyCompletion c).2
  | .queue c => s.enqueueCompletion c
  | .receive =>
    match s.pending.inbox with
    | [] => s
    | c :: rest => (s.receive c rest).2
  | .cancel id => s.cancelSubtree id
  | .step => (s.stepNext? h).elim s Prod.snd
  | .expire timer => s.expire timer
  | .setClock now => s.setClock now
  | .takeUnhandled => s.takeUnhandled.2
  | .dropJournal => s.dropJournal

def moves (s : Scheduler P R W) (h : Host P R W) (ms : List (Move P)) : Scheduler P R W :=
  ms.foldl (fun s m => s.move h m) s

/-- The moves, each with the state in which it is made. -/
def history (s : Scheduler P R W) (h : Host P R W) :
    List (Move P) → List (Scheduler P R W × Move P)
  | [] => []
  | m :: ms => (s, m) :: (s.move h m).history h ms

/-- A scheduler and the moves that led to it from the beginning. -/
inductive Run (h : Host P R W) : List (Scheduler P R W × Move P) → Scheduler P R W → Prop where
  | new {world : W} {s : Scheduler P R W} : Scheduler.new h world = .ok s → Run h [] s
  | move {log : List (Scheduler P R W × Move P)} {s : Scheduler P R W} :
    Run h log s → (m : Move P) → Run h (log ++ [(s, m)]) (s.move h m)

@[simp] theorem moves_nil (s : Scheduler P R W) (h : Host P R W) : s.moves h [] = s := rfl

@[simp] theorem moves_cons (s : Scheduler P R W) (h : Host P R W) (m : Move P)
    (ms : List (Move P)) : s.moves h (m :: ms) = (s.move h m).moves h ms := rfl

theorem moves_append (s : Scheduler P R W) (h : Host P R W) (ms ms' : List (Move P)) :
    s.moves h (ms ++ ms') = (s.moves h ms).moves h ms' :=
  List.foldl_append

theorem history_append (s : Scheduler P R W) (h : Host P R W) (ms ms' : List (Move P)) :
    s.history h (ms ++ ms') = s.history h ms ++ (s.moves h ms).history h ms' := by
  induction ms generalizing s with
  | nil => rfl
  | cons m ms ih => exact congrArg (List.cons _) (ih (s.move h m))

/-- What is found in a history is the state that the moves before it led to. -/
theorem mem_history {entry : Scheduler P R W × Move P} {ms : List (Move P)}
    (he : entry ∈ s.history h ms) :
    ∃ before after, ms = before ++ entry.2 :: after ∧ entry.1 = s.moves h before := by
  induction ms generalizing s with
  | nil => cases he
  | cons m ms ih =>
    rcases List.mem_cons.1 he with rfl | he
    · exact ⟨[], ms, rfl, rfl⟩
    · obtain ⟨before, after, rfl, hstate⟩ := ih he
      exact ⟨m :: before, after, rfl, hstate⟩

theorem move_mem_of_history {entry : Scheduler P R W × Move P} {ms : List (Move P)}
    (he : entry ∈ s.history h ms) : entry.2 ∈ ms := by
  obtain ⟨before, after, rfl, -⟩ := mem_history he
  simp

theorem Run.moves {log : List (Scheduler P R W × Move P)} (run : Run h log s)
    (ms : List (Move P)) : Run h (log ++ s.history h ms) (s.moves h ms) := by
  induction ms generalizing log s with
  | nil => simpa [history] using run
  | cons m ms ih =>
    have hnext := ih (run.move m)
    rwa [List.append_assoc] at hnext

/-- Every state of the past ended a run of its own. -/
theorem Run.of_mem {log : List (Scheduler P R W × Move P)} (run : Run h log s) :
    ∀ entry ∈ log, ∃ before after, log = before ++ entry :: after ∧ Run h before entry.1 := by
  induction run with
  | new => simp
  | @move log s run m ih =>
    intro entry he
    rcases List.mem_append.1 he with he | he
    · obtain ⟨before, after, rfl, hbefore⟩ := ih entry he
      exact ⟨before, after ++ [(s, m)], by simp, hbefore⟩
    · obtain rfl := List.mem_singleton.1 he
      exact ⟨log, [], rfl, run⟩

/-- A run is a list of moves that are made in a new scheduler. -/
theorem Run.origin {log : List (Scheduler P R W × Move P)} (run : Run h log s) :
    ∃ (o : Scheduler P R W) (ms : List (Move P)), Run h [] o ∧ log = o.history h ms ∧
      s = o.moves h ms := by
  induction run with
  | @new world s hs => exact ⟨s, [], .new hs, rfl, rfl⟩
  | move run m ih =>
    obtain ⟨o, ms, hnew, rfl, rfl⟩ := ih
    exact ⟨o, ms ++ [m], hnew, (history_append o h ms [m]).symm, (moves_append o h ms [m]).symm⟩

/-- Where a history is cut, the moves are. -/
theorem history_cut {ms : List (Move P)} {e : Scheduler P R W × Move P}
    {before after : List (Scheduler P R W × Move P)}
    (hms : s.history h ms = before ++ e :: after) : ∃ ms₁ ms₂, ms = ms₁ ++ e.2 :: ms₂ ∧
      before = s.history h ms₁ ∧ e.1 = s.moves h ms₁ ∧ after = (e.1.move h e.2).history h ms₂ := by
  induction ms generalizing s before with
  | nil => simp [history] at hms
  | cons m ms ih =>
    cases before with
    | nil =>
      obtain ⟨rfl, rfl⟩ := List.cons.inj hms
      exact ⟨[], ms, rfl, rfl, rfl, rfl⟩
    | cons first before =>
      obtain ⟨rfl, hrest⟩ := List.cons.inj hms
      obtain ⟨ms₁, ms₂, rfl, rfl, hstate, rfl⟩ := ih hrest
      exact ⟨m :: ms₁, ms₂, rfl, rfl, hstate, rfl⟩

/-- What comes before an entry of a log is a run of its own, and the rest goes on from there. -/
theorem Run.cut {e : Scheduler P R W × Move P}
    {before after : List (Scheduler P R W × Move P)}
    (run : Run h (before ++ e :: after) s) : Run h before e.1 ∧
      ∃ ms, after = (e.1.move h e.2).history h ms ∧ s = (e.1.move h e.2).moves h ms := by
  obtain ⟨o, ms, hnew, hlog, rfl⟩ := run.origin
  obtain ⟨ms₁, ms₂, rfl, rfl, hstate, rfl⟩ := history_cut hlog.symm
  have hbefore := hnew.moves ms₁
  rw [List.nil_append, ← hstate] at hbefore
  exact ⟨hbefore, ms₂, rfl, by rw [moves_append, moves_cons, hstate]⟩

/-! ## Calls as moves -/

/-- The moves that apply queued completions. -/
def applyTrail (s : Scheduler P R W) : List Completion → List (Move P)
  | [] => []
  | c :: rest =>
    .receive ::
      match s.receive c rest with
      | (.ok _, s) => s.applyTrail rest
      | (.error _, _) => []

def inboxTrail (s : Scheduler P R W) : List (Move P) := s.applyTrail s.pending.inbox

def runTrailWithin (h : Host P R W) : Nat → Scheduler P R W → List (Move P)
  | 0, s => s.inboxTrail
  | left + 1, s =>
    s.inboxTrail ++
      match s.applyInbox with
      | (.error _, _) => []
      | (.ok _, s) =>
        match s.stepNext? h with
        | none => []
        | some (.ok _, s) => .step :: runTrailWithin h left s
        | some (.error _, _) => [.step]

def runTrail (s : Scheduler P R W) (h : Host P R W) : List (Move P) :=
  runTrailWithin h h.config.maxSteps s

def completeTrail (s : Scheduler P R W) (h : Host P R W) (c : Completion) : List (Move P) :=
  .deliver c ::
    match s.applyCompletion c with
    | (.ok _, s) => s.runTrail h
    | (.error _, _) => []

def fireTrail (h : Host P R W) (target : Nat) : Nat → Scheduler P R W → List (Move P)
  | fuel, s =>
    match s.pending.due? target, fuel with
    | none, _ => [.setClock target]
    | some _, 0 => []
    | some timer, fuel + 1 =>
      .expire timer :: ((s.expire timer).completeTrail h ⟨timer.2, .ok .unit⟩ ++
        match (s.expire timer).complete h ⟨timer.2, .ok .unit⟩ with
        | (.ok _, s) => fireTrail h target fuel s
        | (.error _, _) => [])

/-- The moves that a call makes. -/
def trail (s : Scheduler P R W) (h : Host P R W) : Call P → List (Move P)
  | .start process args => .enroll process args :: (s.enroll h process args).2.runTrail h
  | .notify n => .announce n :: (s.announce h n).runTrail h
  | .complete c => s.completeTrail h c
  | .run => s.runTrail h
  | .cancel id =>
    if s.isLive id then .cancel id :: (s.cancelSubtree id).runTrail h
    else if s.issued id then s.runTrail h
    else []
  | .advance ms fuel =>
    s.runTrail h ++
      match s.run h with
      | (.ok _, s) => fireTrail h (s.pending.clock + ms) fuel s
      | (.error _, _) => []

/-- What a call answers, the number of a started task apart. There is no answer if the timers that
fall due are more than the call may deliver. -/
def perform (s : Scheduler P R W) (h : Host P R W) : Call P → Option (Reply P R W Unit)
  | .start process args => some ((s.enroll h process args).2.run h)
  | .notify n => some (s.notify h n)
  | .complete c => some (s.complete h c)
  | .run => some (s.run h)
  | .cancel id => some (s.cancelTask h id)
  | .advance ms fuel => s.advance h ms fuel

@[simp] theorem inbox_applyCompletion (s : Scheduler P R W) (c : Completion) :
    (s.applyCompletion c).2.pending.inbox = s.pending.inbox := by
  unfold applyCompletion
  split
  · dsimp only
    split <;> rfl
  · split <;> rfl

@[simp] theorem inbox_receive (s : Scheduler P R W) (c : Completion) (rest : List Completion) :
    (s.receive c rest).2.pending.inbox = rest :=
  inbox_applyCompletion _ c

theorem applyAll_moves (cs : List Completion) (hcs : s.pending.inbox = cs) (h : Host P R W) :
    (s.applyAll cs).2 = s.moves h (s.applyTrail cs) := by
  induction cs generalizing s with
  | nil => rfl
  | cons c rest ih =>
    have hmove : s.move h .receive = (s.receive c rest).2 := by simp [move, hcs]
    have hrest := inbox_receive s c rest
    simp only [applyAll, applyTrail, moves_cons, hmove]
    cases hr : s.receive c rest with
    | mk reply s' =>
      cases reply with
      | error e => rfl
      | ok u => exact ih (by rw [← hrest, hr])

theorem applyInbox_moves (s : Scheduler P R W) (h : Host P R W) :
    s.applyInbox.2 = s.moves h s.inboxTrail :=
  applyAll_moves _ rfl h

theorem runWithin_moves (h : Host P R W) (limit left : Nat) (s : Scheduler P R W) :
    (runWithin h limit left s).2 = s.moves h (runTrailWithin h left s) := by
  induction left generalizing s with
  | zero =>
    simp only [runWithin, runTrailWithin, ← applyInbox_moves]
    cases s.applyInbox with
    | mk reply s' =>
      cases reply with
      | error e => rfl
      | ok u => dsimp only; split <;> rfl
  | succ left ih =>
    simp only [runWithin, runTrailWithin, moves_append, ← applyInbox_moves]
    cases s.applyInbox with
    | mk reply s' =>
      cases reply with
      | error e => rfl
      | ok u =>
        dsimp only
        cases hstep : s'.stepNext? h with
        | none => rfl
        | some next =>
          have hmove : s'.move h .step = next.2 := by simp [move, hstep]
          obtain ⟨reply, s''⟩ := next
          cases reply with
          | error e => simp [hmove]
          | ok u => simp [hmove, ih]

theorem run_moves (s : Scheduler P R W) (h : Host P R W) :
    (s.run h).2 = s.moves h (s.runTrail h) :=
  runWithin_moves h _ _ s

theorem complete_moves (s : Scheduler P R W) (h : Host P R W) (c : Completion) :
    (s.complete h c).2 = s.moves h (s.completeTrail h c) := by
  have hmove : s.move h (.deliver c) = (s.applyCompletion c).2 := rfl
  simp only [complete, completeTrail, moves_cons, hmove]
  cases s.applyCompletion c with
  | mk reply s' =>
    cases reply with
    | error e => rfl
    | ok u => exact run_moves s' h

theorem fireTimers_moves (target fuel : Nat) (s : Scheduler P R W) (reply : Reply P R W Unit)
    (hfire : fireTimers h target fuel s = some reply) :
    reply.2 = s.moves h (fireTrail h target fuel s) := by
  induction fuel generalizing s with
  | zero =>
    unfold fireTimers at hfire
    unfold fireTrail
    cases hdue : s.pending.due? target with
    | none => simp only [hdue, Option.some.injEq] at hfire; subst hfire; rfl
    | some timer => simp [hdue] at hfire
  | succ fuel ih =>
    unfold fireTimers at hfire
    unfold fireTrail
    cases hdue : s.pending.due? target with
    | none => simp only [hdue, Option.some.injEq] at hfire; subst hfire; rfl
    | some timer =>
      have hmove : s.move h (.expire timer) = s.expire timer := rfl
      simp only [hdue] at hfire ⊢
      rw [moves_cons, hmove, moves_append, ← complete_moves]
      cases hc : (s.expire timer).complete h ⟨timer.2, .ok .unit⟩ with
      | mk answer s' =>
        rw [hc] at hfire
        cases answer with
        | error e => cases hfire; rfl
        | ok u => exact ih s' hfire

/-- Every call is a sequence of moves. -/
theorem perform_moves {call : Call P} {reply : Reply P R W Unit}
    (hcall : s.perform h call = some reply) : reply.2 = s.moves h (s.trail h call) := by
  cases call with
  | start process args => cases hcall; exact run_moves _ h
  | notify n => cases hcall; exact run_moves _ h
  | complete c => cases hcall; exact complete_moves s h c
  | run => cases hcall; exact run_moves s h
  | cancel id =>
    cases hcall
    simp only [cancelTask, trail]
    by_cases hl : s.isLive id
    · simp only [hl, if_true]
      exact run_moves _ h
    · by_cases hi : s.issued id
      · simp only [hl, hi, if_true]
        exact run_moves s h
      · simp [hl, hi]
  | advance ms fuel =>
    simp only [perform, advance] at hcall
    simp only [trail, moves_append, ← run_moves]
    cases hr : s.run h with
    | mk answer s' =>
      rw [hr] at hcall
      cases answer with
      | error e => cases hcall; rfl
      | ok u => exact fireTimers_moves _ fuel s' reply hcall

theorem Run.perform {log : List (Scheduler P R W × Move P)} {call : Call P}
    {reply : Reply P R W Unit} (run : Run h log s) (hcall : s.perform h call = some reply) :
    Run h (log ++ s.history h (s.trail h call)) reply.2 := by
  rw [perform_moves hcall]
  exact run.moves _

/-! ## What a move leaves alone -/

theorem quiet_applyCompletion (s : Scheduler P R W) (c : Completion) :
    Quiet s (s.applyCompletion c).2 := by
  have hdiscard : Quiet s { s with pending := s.pending.discard c.operation } :=
    .of_tasks rfl rfl rfl (List.Subset.refl _)
  unfold applyCompletion
  split
  · dsimp only
    split
    · exact hdiscard.trans (quiet_wakeLast _ _ _)
    · exact hdiscard
  · split
    · exact .refl s
    · exact .refl s

theorem quiet_receive (s : Scheduler P R W) (c : Completion) (rest : List Completion) :
    Quiet s (s.receive c rest).2 := by
  refine Quiet.trans ?_ (quiet_applyCompletion _ c)
  exact .of_tasks rfl rfl rfl (List.Subset.refl _)

theorem quiet_announce (s : Scheduler P R W) (h : Host P R W) (n : Notification) :
    Quiet s (s.announce h n) :=
  (quiet_publish s h n).trans (.foldl _ (fun s id => quiet_wakeLast s id _) _ _)

theorem lasting_enroll (s : Scheduler P R W) (h : Host P R W) (process : P) (args : List Value) :
    Lasting s (s.enroll h process args).2 :=
  (lasting_spawn s h process args none .root).trans (quiet_enqueueLast _ _ _).toLasting

/-- Every move but a step takes no answer from any task. -/
theorem lasting_move (s : Scheduler P R W) (h : Host P R W) {m : Move P} (hm : m ≠ .step) :
    Lasting s (s.move h m) := by
  cases m with
  | step => exact absurd rfl hm
  | enroll process args => exact lasting_enroll s h process args
  | announce n => exact (quiet_announce s h n).toLasting
  | deliver c => exact (quiet_applyCompletion s c).toLasting
  | queue c => exact Quiet.toLasting (.of_tasks rfl rfl rfl (List.Subset.refl _))
  | receive =>
    simp only [move]
    split
    · exact (Quiet.refl s).toLasting
    · exact (quiet_receive s _ _).toLasting
  | cancel id => exact (quiet_cancelSubtree s id).toLasting
  | expire timer => exact Quiet.toLasting (.of_tasks rfl rfl rfl (List.Subset.refl _))
  | setClock now => exact Quiet.toLasting (.of_tasks rfl rfl rfl (List.Subset.refl _))
  | takeUnhandled => exact Quiet.toLasting (.of_tasks rfl rfl rfl (List.Subset.refl _))
  | dropJournal => exact Quiet.toLasting (.of_tasks rfl rfl rfl (List.Subset.refl _))

theorem tasks_takeFault (s : Scheduler P R W) : s.takeFault.2.tasks = s.tasks := by
  unfold takeFault
  split <;> rfl

theorem queue_takeFault (s : Scheduler P R W) : s.takeFault.2.queue = s.queue := by
  unfold takeFault
  split <;> rfl

theorem quiet_takeFault (s : Scheduler P R W) : Quiet s s.takeFault.2 := by
  unfold takeFault
  split
  · exact .refl s
  · exact .of_tasks rfl rfl rfl (List.Subset.refl _)

theorem move_step_nil (h : Host P R W) (hq : s.queue = []) : s.move h .step = s := by
  simp [move, stepNext?, hq]

theorem move_step_cons (h : Host P R W) {id : TaskId} {input : Input}
    {rest : List (TaskId × Input)} (hq : s.queue = (id, input) :: rest) :
    s.move h .step = ({ s with queue := rest }.step h id input).takeFault.2 := by
  simp [move, stepNext?, hq]

theorem later_move (s : Scheduler P R W) (h : Host P R W) (m : Move P) : Later s (s.move h m) := by
  by_cases hm : m = .step
  · subst hm
    cases hq : s.queue with
    | nil => rw [move_step_nil h hq]; exact .refl s
    | cons entry rest =>
      obtain ⟨id, input⟩ := entry
      rw [move_step_cons h hq]
      have hpop : Later s { s with queue := rest } := .of_tasks rfl rfl
      exact hpop.trans ((later_step _ h id input).trans (quiet_takeFault _).later)
  · exact (lasting_move s h hm).later

theorem later_moves (s : Scheduler P R W) (h : Host P R W) (ms : List (Move P)) :
    Later s (s.moves h ms) := by
  induction ms generalizing s with
  | nil => exact .refl s
  | cons m ms ih => exact (later_move s h m).trans (ih _)

theorem later_run (s : Scheduler P R W) (h : Host P R W) : Later s (s.run h).2 := by
  rw [run_moves]
  exact later_moves s h _

theorem later_perform {call : Call P} {reply : Reply P R W Unit}
    (hcall : s.perform h call = some reply) : Later s reply.2 := by
  rw [perform_moves hcall]
  exact later_moves s h _

theorem Run.later {log : List (Scheduler P R W × Move P)} (run : Run h log s) :
    ∀ entry ∈ log, Later (entry.1.move h entry.2) s := by
  induction run with
  | new => simp
  | move run m ih =>
    intro entry he
    rcases List.mem_append.1 he with he | he
    · exact (ih entry he).trans (later_move _ h m)
    · obtain rfl := List.mem_singleton.1 he
      exact .refl _

/-- A new scheduler is empty. -/
theorem eq_of_new {world : W} (hs : Scheduler.new h world = .ok s) : s = { world } := by
  unfold Scheduler.new at hs
  split at hs
  · cases hs
  · exact (Except.ok.inj hs).symm

/-- What holds at the beginning and is preserved by every move holds along every run. -/
theorem Run.invariant {log : List (Scheduler P R W × Move P)} {I : Scheduler P R W → Prop}
    (hnew : ∀ world : W, I { world }) (hmove : ∀ s m, I s → I (s.move h m))
    (run : Run h log s) : I s := by
  induction run with
  | new hs =>
    obtain rfl := eq_of_new hs
    exact hnew _
  | move run m ih => exact hmove _ m ih

/-! ## A small program -/

/-- Processes for small runs. All of them wait for a notification; they differ in what they do when
they are cancelled. -/
inductive Demo where
  /-- Fails. -/
  | listener
  /-- Cancels the first task. -/
  | stubborn
  /-- Calls a listener. -/
  | caller

namespace Demo

def cleanup (e : TaskError) : Demo → Step Demo Unit
  | .listener => .failed e
  | .stubborn => .yield (.cancel ⟨1⟩)
  | .caller => .yield (.callProcess .listener [])

def resume : Demo × Nat → Input → Unit → Step Demo Unit × (Demo × Nat) × Unit
  | (p, 0), _, w => (.yield (.take .wildcard), (p, 1), w)
  | (p, 1), .error e, w => (p.cleanup e, (p, 2), w)
  | (p, _), _, w => (.done .unit, (p, 2), w)

end Demo

def demo : Host Demo (Demo × Nat) Unit where
  program := ⟨fun _ => "demo", fun p => .routine fun _ w => ((p, 0), w), Demo.resume⟩
  config := { maxSteps := 8 }

/-- Where the small program is after some moves. -/
def demoAfter (ms : List (Move Demo)) : Scheduler Demo (Demo × Nat) Unit :=
  moves { world := () } demo ms

theorem demoAfter_run (ms : List (Move Demo)) :
    Run demo (history { world := () } demo ms) (demoAfter ms) := by
  have hnew : Run demo [] (({ world := () } : Scheduler Demo (Demo × Nat) Unit)) := .new rfl
  exact hnew.moves ms

end Scheduler

end CoopTasks

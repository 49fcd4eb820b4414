import CoopTasks.Proofs.Twins
import CoopTasks.Proofs.Watchers

/-!
# Lockstep

A host asks a scheduler for one thing after the other and is answered. Twins that are asked for the
same things, by hosts that differ only in what is written down, are in lockstep: they answer alike,
and they make the same moves in states that are the same but for the annals.
-/

namespace CoopTasks

/-- What a host asks of a scheduler. -/
inductive Request (P : Type) where
  | call (call : Call P)
  /-- A completion is queued for the next run. -/
  | queue (c : Completion)
  | takeUnhandled
  | dropJournal

/-- What a host is answered. -/
inductive Response where
  | done (answer : Except HostError Unit)
  /-- The number of the task that was started. -/
  | started (answer : Except HostError TaskId)
  | failures (failures : List Unhandled)

namespace Scheduler

variable {P R W : Type} {s s' r r' : Scheduler P R W} {h : Host P R W} {c : Config}
variable {Q : Annals P W → Annals P W → Prop} {fine : Scheduler P R W × Move P → Prop}
variable {K K' : Scheduler P R W → Scheduler P R W → Prop}
variable {log log' : List (Scheduler P R W × Move P)} {m : Move P} {ms : List (Move P)}

/-- Does what the host asks for. There is no answer if more timers fall due than the call may
deliver. -/
def respond (s : Scheduler P R W) (h : Host P R W) : Request P → Option (Response × Scheduler P R W)
  | .call (.start process args) =>
    let (answer, s) := s.start h process args
    some (.started answer, s)
  | .call call => (s.perform h call).map fun (answer, s) => (.done answer, s)
  | .queue c => some (.done (.ok ()), s.enqueueCompletion c)
  | .takeUnhandled =>
    let (failures, s) := s.takeUnhandled
    some (.failures failures, s)
  | .dropJournal => some (.done (.ok ()), s.dropJournal)

/-- Does what the host asks for, one thing after the other. -/
def serve (s : Scheduler P R W) (h : Host P R W) :
    List (Request P) → Option (List Response × Scheduler P R W)
  | [] => some ([], s)
  | request :: rest =>
    match s.respond h request with
    | none => none
    | some (response, s) => (s.serve h rest).map fun (responses, s) => (response :: responses, s)

/-- The moves that a request makes. -/
def requestTrail (s : Scheduler P R W) (h : Host P R W) : Request P → List (Move P)
  | .call call => s.trail h call
  | .queue c => [.queue c]
  | .takeUnhandled => [.takeUnhandled]
  | .dropJournal => [.dropJournal]

/-- The moves that several requests make. -/
def serveTrail (s : Scheduler P R W) (h : Host P R W) : List (Request P) → List (Move P)
  | [] => []
  | request :: rest =>
    s.requestTrail h request ++
      match s.respond h request with
      | none => []
      | some (_, s) => s.serveTrail h rest

/-- The effect that a task yields in an entry of a log, if it is well formed. -/
def dispatched? (h : Host P R W) (e : Scheduler P R W × Move P) : Option (TaskId × Effect P W) :=
  match e.2, e.1.turn? h with
  | .step, some (id, .yield effect) => if effect.violation? = none then some (id, effect) else none
  | _, _ => none

/-- The well-formed effects of a log, in the order in which they were dispatched. -/
def dispatches (h : Host P R W) (log : List (Scheduler P R W × Move P)) :
    List (TaskId × Effect P W) := log.filterMap (dispatched? h)

/-! ## Requests as moves -/

theorem start_eq (s : Scheduler P R W) (h : Host P R W) (process : P) (args : List Value) :
    s.start h process args = (((s.enroll h process args).2.run h).1.map fun _ => ⟨s.nextTask⟩,
      ((s.enroll h process args).2.run h).2) := by
  have hid : (s.enroll h process args).1 = ⟨s.nextTask⟩ := rfl
  simp only [start, runThen, hid]
  cases (s.enroll h process args).2.run h with
  | mk answer s' => cases answer <;> rfl

/-- What a call is answered, given the number of the next task. -/
def response (next : Nat) (answer : Except HostError Unit) : Call P → Response
  | .start _ _ => .started (answer.map fun _ => ⟨next⟩)
  | _ => .done answer

theorem respond_call (s : Scheduler P R W) (h : Host P R W) (call : Call P) :
    s.respond h (.call call) =
      (s.perform h call).map fun reply => (response s.nextTask reply.1 call, reply.2) := by
  cases call with
  | start process args =>
    simp only [respond, start_eq]
    rfl
  | _ => rfl

theorem respond_moves {request : Request P} {response : Response}
    (hs : s.respond h request = some (response, r)) : r = s.moves h (s.requestTrail h request) := by
  cases request with
  | queue c => cases hs; rfl
  | takeUnhandled => cases hs; rfl
  | dropJournal => cases hs; rfl
  | call call =>
    rw [respond_call] at hs
    obtain ⟨reply, hreply, hpair⟩ := Option.map_eq_some_iff.1 hs
    cases hpair
    exact perform_moves hreply

theorem serve_moves {requests : List (Request P)} {responses : List Response}
    (hs : s.serve h requests = some (responses, r)) :
    r = s.moves h (s.serveTrail h requests) := by
  induction requests generalizing s responses with
  | nil => cases hs; rfl
  | cons request rest ih =>
    simp only [serve] at hs
    cases hfirst : s.respond h request with
    | none => rw [hfirst] at hs; cases hs
    | some pair =>
      obtain ⟨response, s'⟩ := pair
      rw [hfirst] at hs
      obtain ⟨⟨others, r'⟩, hrest, heq⟩ := Option.map_eq_some_iff.1 hs
      cases heq
      rw [serveTrail, moves_append, ← respond_moves hfirst, hfirst]
      exact ih hrest

/-! ## What keeps twins in lockstep -/

/-- The annals are kept related, and a task that joins in a fine entry finds the same record on both
sides. -/
structure Mirror (h : Host P R W) (c : Config) (Q : Annals P W → Annals P W → Prop)
    (fine : Scheduler P R W × Move P → Prop) : Prop where
  budget : c.maxSteps = h.config.maxSteps
  upkeep : Upkeep h.config c Q
  agree : ∀ {log' s s'}, Run (h.withConfig c) log' s' → Twins Q s s' → fine (s, .step) →
    Agree h s s'

/-- Twins of which the second has a past. -/
structure Paired (h : Host P R W) (c : Config) (Q : Annals P W → Annals P W → Prop)
    (s s' : Scheduler P R W) : Prop where
  twins : Twins Q s s'
  past : ∃ log', Run (h.withConfig c) log' s'

namespace Paired

theorem move (hp : Paired h c Q s s') (hm : Mirror h c Q fine) (hfine : fine (s, m)) :
    Paired h c Q (s.move h m) (s'.move (h.withConfig c) m) := by
  obtain ⟨log', run⟩ := hp.past
  refine ⟨hp.twins.move hm.upkeep ?_, _, run.move m⟩
  rintro rfl
  exact hm.agree run hp.twins hfine

theorem moves (hp : Paired h c Q s s') (hm : Mirror h c Q fine)
    (hfine : ∀ e ∈ s.history h ms, fine e) :
    Paired h c Q (s.moves h ms) (s'.moves (h.withConfig c) ms) := by
  induction ms generalizing s s' with
  | nil => exact hp
  | cons m ms ih =>
    obtain ⟨hfirst, hrest⟩ := List.forall_mem_cons.1 hfine
    exact ih (hp.move hm hfirst) hrest

theorem history (hp : Paired h c Q s s') (hm : Mirror h c Q fine)
    (hfine : ∀ e ∈ s.history h ms, fine e) :
    List.Forall₂ (fun e e' => Twins Q e.1 e'.1 ∧ e'.2 = e.2) (s.history h ms)
      (s'.history (h.withConfig c) ms) := by
  induction ms generalizing s s' with
  | nil => exact .nil
  | cons m ms ih =>
    obtain ⟨hfirst, hrest⟩ := List.forall_mem_cons.1 hfine
    exact .cons ⟨hp.twins, rfl⟩ (ih (hp.move hm hfirst) hrest)

end Paired

/-! ## Calls in lockstep -/

theorem applyAll_withAnnals (s : Scheduler P R W) (a : Annals P W) (cs : List Completion) :
    (s.withAnnals a).applyAll cs = ((s.applyAll cs).1, (s.applyAll cs).2.withAnnals a) := by
  induction cs generalizing s with
  | nil => rfl
  | cons c rest ih =>
    simp only [applyAll, receive_withAnnals]
    cases s.receive c rest with
    | mk answer s' =>
      cases answer with
      | ok _ => exact ih s'
      | error e => rfl

theorem applyTrail_withAnnals (s : Scheduler P R W) (a : Annals P W) (cs : List Completion) :
    (s.withAnnals a).applyTrail cs = s.applyTrail cs := by
  induction cs generalizing s with
  | nil => rfl
  | cons c rest ih =>
    simp only [applyTrail, receive_withAnnals]
    cases s.receive c rest with
    | mk answer s' =>
      cases answer with
      | ok _ => exact congrArg (List.cons _) (ih s')
      | error e => rfl

theorem Twins.queue (hs : Twins Q s s') : s'.queue = s.queue := by
  obtain ⟨a, rfl, -⟩ := hs
  rfl

namespace Paired

/-- Queued completions are applied alike. -/
theorem applyInbox (hp : Paired h c Q s s') (hm : Mirror h c Q fine)
    (hfine : ∀ e ∈ s.history h s.inboxTrail, fine e) :
    s'.inboxTrail = s.inboxTrail ∧ ∃ answer r r', s.applyInbox = (answer, r) ∧
      s'.applyInbox = (answer, r') ∧ Paired h c Q r r' := by
  have hafter := hp.moves hm hfine
  have htrail : s'.inboxTrail = s.inboxTrail := by
    obtain ⟨a, rfl, -⟩ := hp.twins
    exact applyTrail_withAnnals s a _
  have hanswer : s'.applyInbox.1 = s.applyInbox.1 := by
    obtain ⟨a, rfl, -⟩ := hp.twins
    have hinbox : (s.withAnnals a).applyInbox = (s.withAnnals a).applyAll s.pending.inbox := rfl
    rw [hinbox, applyAll_withAnnals]
    rfl
  rw [← applyInbox_moves, ← htrail, ← applyInbox_moves] at hafter
  exact ⟨htrail, s.applyInbox.1, s.applyInbox.2, s'.applyInbox.2, rfl, Prod.ext hanswer rfl, hafter⟩

/-- The first task of the queue is stepped alike. -/
theorem stepNext? (hp : Paired h c Q s s') (hm : Mirror h c Q fine)
    (hfine : s.queue ≠ [] → fine (s, .step)) :
    (s.stepNext? h = none ∧ s'.stepNext? (h.withConfig c) = none) ∨
      ∃ answer r r', s.stepNext? h = some (answer, r) ∧
        s'.stepNext? (h.withConfig c) = some (answer, r') ∧ Paired h c Q r r' := by
  obtain ⟨log', run⟩ := hp.past
  have hagree : Agree h s s' := by
    intro id target hturn
    have hq : s.queue ≠ [] := by
      intro hq
      simp [turn?, hq] at hturn
    exact hm.agree run hp.twins (hfine hq) id target hturn
  rcases hp.twins.stepNext? hm.upkeep hagree with hnone | ⟨answer, r, r', hr, hr', htwins⟩
  · exact Or.inl hnone
  · have hmove : s'.move (h.withConfig c) .step = r' := by simp [Scheduler.move, hr']
    exact Or.inr ⟨answer, r, r', hr, hr', htwins, _, hmove ▸ run.move .step⟩

theorem runWithin (hm : Mirror h c Q fine) (limit left : Nat) (hp : Paired h c Q s s')
    (hfine : ∀ e ∈ s.history h (runTrailWithin h left s), fine e) :
    runTrailWithin (h.withConfig c) left s' = runTrailWithin h left s ∧
      (runWithin (h.withConfig c) limit left s').1 = (runWithin h limit left s).1 := by
  induction left generalizing s s' with
  | zero =>
    obtain ⟨htrail, answer, r, r', hr, hr', hafter⟩ := hp.applyInbox hm hfine
    refine ⟨htrail, ?_⟩
    simp only [Scheduler.runWithin, hr, hr']
    cases answer with
    | error e => rfl
    | ok _ =>
      dsimp only
      rw [hafter.twins.queue]
      split <;> rfl
  | succ left ih =>
    simp only [runTrailWithin, history_append, List.forall_mem_append] at hfine
    obtain ⟨hfirst, hrest⟩ := hfine
    obtain ⟨htrail, answer, r, r', hr, hr', hafter⟩ := hp.applyInbox hm hfirst
    rw [← applyInbox_moves, hr] at hrest
    simp only [runTrailWithin, Scheduler.runWithin, htrail, hr, hr']
    cases answer with
    | error e => exact ⟨rfl, rfl⟩
    | ok _ =>
      have hstep : r.queue ≠ [] → fine (r, .step) := by
        intro hq
        obtain ⟨⟨id, input⟩, rest, hq⟩ := List.exists_cons_of_ne_nil hq
        refine hrest _ ?_
        simp only [Scheduler.stepNext?, hq]
        split
        all_goals simp_all [Scheduler.history]
      rcases hafter.stepNext? hm hstep with ⟨hnone, hnone'⟩ | ⟨answer, q, q', hq, hq', hnext⟩
      · simp only [hnone, hnone']
        exact ⟨trivial, trivial⟩
      · simp only [hq, hq'] at hrest ⊢
        cases answer with
        | error e => exact ⟨rfl, rfl⟩
        | ok _ =>
          have hmove : r.move h .step = q := by simp [Scheduler.move, hq]
          simp only [Scheduler.history, hmove, List.forall_mem_cons] at hrest
          obtain ⟨hsame, hanswer⟩ := ih hnext hrest.2
          exact ⟨by dsimp only; rw [hsame], hanswer⟩

theorem run (hm : Mirror h c Q fine) (hp : Paired h c Q s s')
    (hfine : ∀ e ∈ s.history h (s.runTrail h), fine e) :
    s'.runTrail (h.withConfig c) = s.runTrail h ∧
      (s'.run (h.withConfig c)).1 = (s.run h).1 := by
  have hbudget : (h.withConfig c).config.maxSteps = h.config.maxSteps := hm.budget
  unfold runTrail Scheduler.run
  rw [hbudget]
  exact runWithin hm _ _ hp hfine

theorem complete (hm : Mirror h c Q fine) (hp : Paired h c Q s s') (d : Completion)
    (hfine : ∀ e ∈ s.history h (s.completeTrail h d), fine e) :
    s'.completeTrail (h.withConfig c) d = s.completeTrail h d ∧
      (s'.complete (h.withConfig c) d).1 = (s.complete h d).1 := by
  have hfirst := hfine (s, .deliver d) (by simp [completeTrail, Scheduler.history])
  have hdelivered := hp.move hm hfirst
  simp only [Scheduler.move] at hdelivered
  have hanswer : (s'.applyCompletion d).1 = (s.applyCompletion d).1 := by
    obtain ⟨a, rfl, -⟩ := hp.twins
    rw [applyCompletion_withAnnals]
  simp only [completeTrail, Scheduler.complete, Scheduler.history, Scheduler.move,
    List.forall_mem_cons] at hfine ⊢
  cases hs : s.applyCompletion d with
  | mk answer r =>
    cases hs' : s'.applyCompletion d with
    | mk answer' r' =>
      rw [hs, hs'] at hanswer hdelivered
      rw [hs] at hfine
      obtain rfl : answer' = answer := hanswer
      cases answer' with
      | error e => exact ⟨rfl, rfl⟩
      | ok _ =>
        obtain ⟨htrail, hrun⟩ := hdelivered.run hm hfine.2
        exact ⟨congrArg (List.cons _) htrail, hrun⟩

theorem fireTimers (hm : Mirror h c Q fine) (target fuel : Nat) (hp : Paired h c Q s s')
    (hfine : ∀ e ∈ s.history h (fireTrail h target fuel s), fine e) :
    fireTrail (h.withConfig c) target fuel s' = fireTrail h target fuel s ∧
      (fireTimers (h.withConfig c) target fuel s').map Prod.fst =
        (fireTimers h target fuel s).map Prod.fst := by
  have hpending : ∀ {s s'}, Paired h c Q s s' → s'.pending = s.pending := by
    intro s s' hp
    obtain ⟨a, rfl, -⟩ := hp.twins
    rfl
  induction fuel generalizing s s' with
  | zero =>
    unfold fireTrail Scheduler.fireTimers
    rw [hpending hp]
    cases s.pending.due? target <;> simp
  | succ fuel ih =>
    unfold fireTrail at hfine
    unfold fireTrail Scheduler.fireTimers
    rw [hpending hp]
    cases hdue : s.pending.due? target with
    | none => simp
    | some timer =>
      simp only [hdue, Scheduler.history, history_append, List.forall_mem_cons,
        List.forall_mem_append] at hfine ⊢
      obtain ⟨hclock, hcomplete, hrest⟩ := hfine
      have hset := hp.move hm hclock
      simp only [Scheduler.move] at hset hcomplete hrest
      obtain ⟨htrail, hanswer⟩ := hset.complete hm _ hcomplete
      have hafter := hset.moves hm hcomplete
      rw [← complete_moves, ← htrail, ← complete_moves] at hafter
      rw [← complete_moves] at hrest
      rw [htrail]
      cases hs : (s.expire timer).complete h ⟨timer.2, .ok .unit⟩ with
      | mk answer r =>
        cases hs' : (s'.expire timer).complete (h.withConfig c) ⟨timer.2, .ok .unit⟩ with
        | mk answer' r' =>
          rw [hs] at hrest
          rw [hs, hs'] at hanswer hafter
          obtain rfl : answer' = answer := hanswer
          cases answer' with
          | error e => simp
          | ok _ =>
            obtain ⟨hsame, hfired⟩ := ih hafter hrest
            exact ⟨by dsimp only; rw [hsame], hfired⟩

theorem advance (hm : Mirror h c Q fine) (hp : Paired h c Q s s') (ms fuel : Nat)
    (hfine : ∀ e ∈ s.history h (s.trail h (.advance ms fuel)), fine e) :
    s'.trail (h.withConfig c) (.advance ms fuel) = s.trail h (.advance ms fuel) ∧
      (s'.advance (h.withConfig c) ms fuel).map Prod.fst =
        (s.advance h ms fuel).map Prod.fst := by
  simp only [trail, history_append, List.forall_mem_append, Scheduler.advance] at hfine ⊢
  obtain ⟨hfirst, hrest⟩ := hfine
  obtain ⟨htrail, hanswer⟩ := hp.run hm hfirst
  have hafter := hp.moves hm hfirst
  rw [← run_moves, ← htrail, ← run_moves] at hafter
  rw [← run_moves] at hrest
  rw [htrail]
  cases hs : s.run h with
  | mk answer r =>
    cases hs' : s'.run (h.withConfig c) with
    | mk answer' r' =>
      rw [hs] at hrest
      rw [hs, hs'] at hanswer hafter
      obtain rfl : answer' = answer := hanswer
      cases answer' with
      | error e => exact ⟨rfl, rfl⟩
      | ok _ =>
        have hclock : r'.pending = r.pending := by
          obtain ⟨a, rfl, -⟩ := hafter.twins
          rfl
        obtain ⟨hsame, hfired⟩ := hafter.fireTimers hm (r.pending.clock + ms) fuel hrest
        dsimp only
        rw [hclock]
        exact ⟨by rw [hsame], hfired⟩

/-- A call makes the same moves and is answered alike. -/
theorem perform (hm : Mirror h c Q fine) (hp : Paired h c Q s s') (call : Call P)
    (hfine : ∀ e ∈ s.history h (s.trail h call), fine e) :
    s'.trail (h.withConfig c) call = s.trail h call ∧
      (s'.perform (h.withConfig c) call).map Prod.fst = (s.perform h call).map Prod.fst := by
  cases call with
  | start process args =>
    obtain ⟨hfirst, hrest⟩ := List.forall_mem_cons.1 hfine
    obtain ⟨htrail, hanswer⟩ := (hp.move (m := .enroll process args) hm hfirst).run hm hrest
    exact ⟨congrArg (List.cons _) htrail, congrArg some hanswer⟩
  | notify n =>
    obtain ⟨hfirst, hrest⟩ := List.forall_mem_cons.1 hfine
    obtain ⟨htrail, hanswer⟩ := (hp.move (m := .announce n) hm hfirst).run hm hrest
    exact ⟨congrArg (List.cons _) htrail, congrArg some hanswer⟩
  | complete d =>
    obtain ⟨htrail, hanswer⟩ := hp.complete hm d hfine
    exact ⟨htrail, congrArg some hanswer⟩
  | run =>
    obtain ⟨htrail, hanswer⟩ := hp.run hm hfine
    exact ⟨htrail, congrArg some hanswer⟩
  | cancel id =>
    have hlive : s'.isLive id = s.isLive id ∧ s'.issued id = s.issued id := by
      obtain ⟨a, rfl, -⟩ := hp.twins
      exact ⟨rfl, rfl⟩
    simp only [trail, Scheduler.perform, cancelTask, hlive] at hfine ⊢
    split at hfine
    · rename_i hl
      obtain ⟨hfirst, hrest⟩ := List.forall_mem_cons.1 hfine
      obtain ⟨htrail, hanswer⟩ := (hp.move (m := .cancel id) hm hfirst).run hm hrest
      rw [if_pos hl, if_pos hl, if_pos hl, if_pos hl]
      exact ⟨congrArg (List.cons _) htrail, congrArg some hanswer⟩
    · rename_i hl
      rw [if_neg hl, if_neg hl, if_neg hl, if_neg hl]
      split at hfine
      · rename_i hi
        obtain ⟨htrail, hanswer⟩ := hp.run hm hfine
        rw [if_pos hi, if_pos hi, if_pos hi, if_pos hi]
        exact ⟨htrail, congrArg some hanswer⟩
      · rename_i hi
        rw [if_neg hi, if_neg hi, if_neg hi, if_neg hi]
        exact ⟨rfl, rfl⟩
  | advance ms fuel => exact hp.advance hm ms fuel hfine

/-! ## Requests in lockstep -/

/-- A request makes the same moves and is answered alike. -/
theorem respond (hm : Mirror h c Q fine) (hp : Paired h c Q s s') (request : Request P)
    (hfine : ∀ e ∈ s.history h (s.requestTrail h request), fine e) :
    s'.requestTrail (h.withConfig c) request = s.requestTrail h request ∧
      (s'.respond (h.withConfig c) request).map Prod.fst =
        (s.respond h request).map Prod.fst := by
  cases request with
  | queue d => exact ⟨rfl, rfl⟩
  | dropJournal => exact ⟨rfl, rfl⟩
  | takeUnhandled =>
    obtain ⟨a, rfl, -⟩ := hp.twins
    exact ⟨rfl, rfl⟩
  | call call =>
    have hnext : s'.nextTask = s.nextTask := by
      obtain ⟨a, rfl, -⟩ := hp.twins
      rfl
    obtain ⟨htrail, hanswer⟩ := hp.perform hm call hfine
    refine ⟨htrail, ?_⟩
    have hmap := congrArg (Option.map fun answer => response s.nextTask answer call) hanswer
    simpa only [respond_call, hnext, Option.map_map, Function.comp_def] using hmap

/-- Several requests make the same moves and are answered alike. -/
theorem serve (hm : Mirror h c Q fine) (requests : List (Request P)) (hp : Paired h c Q s s')
    (hfine : ∀ e ∈ s.history h (s.serveTrail h requests), fine e) :
    s'.serveTrail (h.withConfig c) requests = s.serveTrail h requests ∧
      (s'.serve (h.withConfig c) requests).map Prod.fst = (s.serve h requests).map Prod.fst := by
  induction requests generalizing s s' with
  | nil => exact ⟨rfl, rfl⟩
  | cons request rest ih =>
    simp only [serveTrail, history_append, List.forall_mem_append, Scheduler.serve] at hfine ⊢
    obtain ⟨hfirst, hrest⟩ := hfine
    obtain ⟨htrail, hanswer⟩ := hp.respond hm request hfirst
    have hafter := hp.moves hm hfirst
    rw [htrail]
    cases hs : s.respond h request with
    | none =>
      cases hs' : s'.respond (h.withConfig c) request with
      | none => exact ⟨rfl, rfl⟩
      | some pair => simp [hs, hs'] at hanswer
    | some pair =>
      cases hs' : s'.respond (h.withConfig c) request with
      | none => simp [hs, hs'] at hanswer
      | some pair' =>
        obtain ⟨response, r⟩ := pair
        obtain ⟨response', r'⟩ := pair'
        simp only [hs, hs', Option.map_some, Option.some.injEq] at hanswer hrest ⊢
        rw [← respond_moves hs, ← htrail, ← respond_moves hs'] at hafter
        rw [← respond_moves hs] at hrest
        obtain ⟨hsame, hserved⟩ := ih hafter hrest
        refine ⟨by rw [hsame], ?_⟩
        have hmap := congrArg (Option.map (response :: ·)) hserved
        simpa only [Option.map_map, Function.comp_def, hanswer] using hmap

end Paired

/-- Two schedulers answer a host alike. They go through the same moves, in states that are related;
they step the same tasks with the same inputs, dispatch the same effects, and publish the same
notifications. -/
structure Lockstep (K : Scheduler P R W → Scheduler P R W → Prop) (h h' : Host P R W)
    (s s' : Scheduler P R W) (requests : List (Request P)) : Prop where
  answers : (s.serve h requests = none ∧ s'.serve h' requests = none) ∨
    ∃ responses r r', s.serve h requests = some (responses, r) ∧
      s'.serve h' requests = some (responses, r') ∧ K r r'
  entries : List.Forall₂ (fun e e' => K e.1 e'.1 ∧ e'.2 = e.2)
    (s.history h (s.serveTrail h requests)) (s'.history h' (s'.serveTrail h' requests))
  turns : turns (s'.history h' (s'.serveTrail h' requests)) =
    turns (s.history h (s.serveTrail h requests))
  dispatches : dispatches h' (s'.history h' (s'.serveTrail h' requests)) =
    dispatches h (s.history h (s.serveTrail h requests))
  notices : (s'.history h' (s'.serveTrail h' requests)).filterMap (published? h') =
    (s.history h (s.serveTrail h requests)).filterMap (published? h)

theorem Lockstep.mono {h' : Host P R W} {requests : List (Request P)}
    (hl : Lockstep K h h' s s' requests) (hK : ∀ {s s'}, K s s' → K' s s') :
    Lockstep K' h h' s s' requests where
  answers := hl.answers.imp_right fun ⟨responses, r, r', hr, hr', hk⟩ =>
    ⟨responses, r, r', hr, hr', hK hk⟩
  entries := hl.entries.imp fun _ _ he => ⟨hK he.1, he.2⟩
  turns := hl.turns
  dispatches := hl.dispatches
  notices := hl.notices

/-- What is found in related lists, entry by entry, is the same. -/
theorem filterMap_eq_of_forall₂ {α β γ : Type} {L : α → β → Prop} {xs : List α} {ys : List β}
    {f : α → Option γ} {g : β → Option γ} (hl : List.Forall₂ L xs ys)
    (hsame : ∀ x y, L x y → g y = f x) : ys.filterMap g = xs.filterMap f := by
  induction hl with
  | nil => rfl
  | cons hfirst _ ih => rw [List.filterMap_cons, List.filterMap_cons, hsame _ _ hfirst, ih]

/-- Twins that are asked for the same are in lockstep. -/
theorem Paired.lockstep (hm : Mirror h c Q fine) (hp : Paired h c Q s s')
    (requests : List (Request P)) (hfine : ∀ e ∈ s.history h (s.serveTrail h requests), fine e) :
    Lockstep (Twins Q) h (h.withConfig c) s s' requests := by
  obtain ⟨htrail, hanswers⟩ := hp.serve hm requests hfine
  have hentries : List.Forall₂ (fun e e' => Twins Q e.1 e'.1 ∧ e'.2 = e.2)
      (s.history h (s.serveTrail h requests))
      (s'.history (h.withConfig c) (s'.serveTrail (h.withConfig c) requests)) := by
    rw [htrail]
    exact hp.history hm hfine
  refine ⟨?_, hentries, ?_, ?_, ?_⟩
  · cases hs : s.serve h requests with
    | none =>
      cases hs' : s'.serve (h.withConfig c) requests with
      | none => exact Or.inl ⟨rfl, rfl⟩
      | some pair => simp [hs, hs'] at hanswers
    | some pair =>
      cases hs' : s'.serve (h.withConfig c) requests with
      | none => simp [hs, hs'] at hanswers
      | some pair' =>
        obtain ⟨responses, r⟩ := pair
        obtain ⟨responses', r'⟩ := pair'
        have hafter := (hp.moves hm hfine).twins
        rw [← serve_moves hs, ← htrail, ← serve_moves hs'] at hafter
        simp only [hs, hs', Option.map_some, Option.some.injEq] at hanswers
        exact Or.inr ⟨responses, r, r', rfl, by rw [hanswers], hafter⟩
  all_goals
    refine filterMap_eq_of_forall₂ hentries fun e e' he => ?_
    obtain ⟨r, m⟩ := e
    obtain ⟨r', m'⟩ := e'
    obtain ⟨⟨a, hr, -⟩, hm⟩ := he
    obtain rfl : r' = r.withAnnals a := hr
    obtain rfl : m' = m := hm
    rfl

end Scheduler

end CoopTasks

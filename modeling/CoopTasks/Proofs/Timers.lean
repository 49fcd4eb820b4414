import CoopTasks.Proofs.Advance

/-!
# Timers fire on time

A host sets the clock only by letting time pass, so no timer is ever behind the clock. When time
passes, timers fire in the order of their deadlines, those of one moment in the order in which they
were set, and each when the clock shows its deadline. A timer that is due by the end fires unless
its operation is completed or withdrawn before; what is set meanwhile fires in its turn.
-/

namespace CoopTasks

namespace Pending

variable {p p' : Pending} {x : Nat × OperationId}

/-- A timer is over: all that are left are later, and all to come will be. -/
structure Past (x : Nat × OperationId) (p : Pending) : Prop where
  later : ∀ y ∈ p.timers, earlier x y
  known : x.2.val < p.nextId
  clock : x.1 ≤ p.clock

theorem Past.proceeds (hx : Past x p) (hp : Proceeds p p') : Past x p' := by
  refine ⟨fun y hy => ?_, Nat.lt_of_lt_of_le hx.known hp.next, hp.clock ▸ hx.clock⟩
  rcases hp.timers y hy with hy | ⟨hnew, hle⟩
  · exact hx.later y hy
  · have hid := hx.known
    have hclock := hx.clock
    rw [earlier_iff]
    omega

theorem Past.elapses (hx : Past x p) {now : Nat} (he : Elapses now p p') : Past x p' :=
  ⟨fun y hy => hx.later y (he.timers.subset hy), he.next ▸ hx.known,
    he.clock ▸ Nat.le_trans hx.clock (Nat.le_max_left _ _)⟩

end Pending

namespace Scheduler

variable {P R W : Type} {s s' : Scheduler P R W} {h : Host P R W} {ms : List (Move P)}
variable {log : List (Scheduler P R W × Move P)} {reply : Reply P R W Unit} {target : Nat}
variable {x : Nat × OperationId} {op : OperationId}

/-! ## The clock is never ahead of a timer -/

/-- The operations are in order, and no timer is behind the clock. -/
structure Punctual (s : Scheduler P R W) : Prop where
  sound : s.pending.Sound
  timely : s.pending.Timely

/-- Where the clock is set, it is set no further than the first timer. -/
def Paced (log : List (Scheduler P R W × Move P)) : Prop :=
  ∀ entry ∈ log, ∀ now, time? entry.2 = some now →
    ∀ timer ∈ entry.1.pending.timers, now ≤ timer.1

theorem Punctual.proceeds (hs : Punctual s) (hp : s.pending.Proceeds s'.pending) : Punctual s' :=
  ⟨hp.sound hs.sound, hs.timely.proceeds hp⟩

theorem Punctual.elapses (hs : Punctual s) {now : Nat}
    (he : Pending.Elapses now s.pending s'.pending)
    (hnow : ∀ timer ∈ s.pending.timers, now ≤ timer.1) : Punctual s' :=
  ⟨hs.sound.elapses he, hs.timely.elapses he hnow⟩

theorem Punctual.move (hs : Punctual s) (h : Host P R W) {m : Move P}
    (hm : ∀ now, time? m = some now → ∀ timer ∈ s.pending.timers, now ≤ timer.1) :
    Punctual (s.move h m) := by
  rcases proceeds_move s h m with hp | ⟨now, hclock, he⟩
  · exact hs.proceeds hp
  · exact hs.elapses he (hm now hclock)

theorem Punctual.moves (hs : Punctual s) (hp : Paced (s.history h ms)) :
    Punctual (s.moves h ms) ∧ ∀ entry ∈ s.history h ms, Punctual entry.1 := by
  induction ms generalizing s with
  | nil => exact ⟨hs, by simp [history]⟩
  | cons m ms ih =>
    have hmove := hs.move h fun now heq => hp (s, m) List.mem_cons_self now heq
    obtain ⟨hend, hall⟩ := ih hmove fun entry he => hp entry (List.mem_cons_of_mem _ he)
    exact ⟨hend, List.forall_mem_cons.2 ⟨hs, hall⟩⟩

theorem paced_of_not_set (hms : ∀ m ∈ ms, time? m = none) : Paced (s.history h ms) := by
  intro entry he now heq
  rw [hms _ (move_mem_of_history he)] at heq
  cases heq

theorem paced_append {log' : List (Scheduler P R W × Move P)} (hlog : Paced log)
    (hlog' : Paced log') : Paced (log ++ log') := by
  intro entry he
  rcases List.mem_append.1 he with he | he
  · exact hlog entry he
  · exact hlog' entry he

theorem paced_cons {m : Move P}
    (hm : ∀ now, time? m = some now → ∀ timer ∈ s.pending.timers, now ≤ timer.1)
    (hrest : Paced ((s.move h m).history h ms)) : Paced (s.history h (m :: ms)) := by
  intro entry he
  rcases List.mem_cons.1 he with rfl | he
  · exact hm
  · exact hrest entry he

theorem paced_runTrail (s : Scheduler P R W) (h : Host P R W) :
    Paced (s.history h (s.runTrail h)) :=
  paced_of_not_set fun _ => time?_of_runTrail

theorem paced_completeTrail (s : Scheduler P R W) (h : Host P R W) (c : Completion) :
    Paced (s.history h (s.completeTrail h c)) :=
  paced_of_not_set fun _ => time?_of_completeTrail

/-- The clock is set to the first timer that is due, or, when none is left, to the end. -/
theorem paced_fireTrail (target fuel : Nat) (s : Scheduler P R W) :
    Paced (s.history h (fireTrail h target fuel s)) := by
  have hdone : ∀ {s : Scheduler P R W}, s.pending.due? target = none →
      Paced (s.history h [.setClock target]) := fun hdue =>
    paced_cons (fun now hnow timer hm => Option.some.inj hnow ▸
      Nat.le_of_lt (Pending.due?_eq_none.1 hdue timer hm)) (by simp [Paced, history])
  induction fuel generalizing s with
  | zero =>
    unfold fireTrail
    cases hdue : s.pending.due? target with
    | none => exact hdone hdue
    | some timer => simp [Paced, history]
  | succ fuel ih =>
    unfold fireTrail
    cases hdue : s.pending.due? target with
    | none => exact hdone hdue
    | some x =>
      refine paced_cons (fun now hnow => Option.some.inj hnow ▸ Pending.due?_le hdue) ?_
      have hmove : s.move h (.expire x) = s.expire x := rfl
      rw [hmove, history_append]
      refine paced_append (paced_completeTrail _ h _) ?_
      rw [← complete_moves]
      cases (s.expire x).complete h ⟨x.2, .ok .unit⟩ with
      | mk answer r =>
        cases answer with
        | error e => simp [Paced, history]
        | ok u => exact ih r

/-- No call sets the clock beyond a timer, not even one that comes to no end. -/
theorem paced_trail (s : Scheduler P R W) (h : Host P R W) (call : Call P) :
    Paced (s.history h (s.trail h call)) := by
  have hrun : ∀ {r : Scheduler P R W} {m : Move P}, time? m = none → s.move h m = r →
      Paced (s.history h (m :: r.runTrail h)) := by
    rintro r m hm rfl
    exact paced_cons (by simp [hm]) (paced_runTrail _ h)
  cases call with
  | start process args => exact hrun rfl rfl
  | notify n => exact hrun rfl rfl
  | complete c => exact paced_completeTrail s h c
  | run => exact paced_runTrail s h
  | cancel id =>
    simp only [trail]
    split
    · exact hrun rfl rfl
    · split
      · exact paced_runTrail s h
      · simp [Paced, history]
  | advance time fuel =>
    rw [trail, history_append, ← run_moves]
    refine paced_append (paced_runTrail s h) ?_
    cases s.run h with
    | mk answer r =>
      cases answer with
      | error e => simp [Paced, history]
      | ok u => exact paced_fireTrail _ fuel r

/-! ## What a host does -/

/-- What a host does between two calls. -/
def isAside : Move P → Bool
  | .queue _ | .takeUnhandled | .dropJournal => true
  | _ => false

/-- A scheduler and all that led to it from the beginning, by the calls of a host. -/
inductive Session (h : Host P R W) : List (Scheduler P R W × Move P) → Scheduler P R W → Prop where
  | new {world : W} {s : Scheduler P R W} : Scheduler.new h world = .ok s → Session h [] s
  | call {log : List (Scheduler P R W × Move P)} {s : Scheduler P R W}
      {reply : Reply P R W Unit} : Session h log s → ∀ call, s.perform h call = some reply →
      Session h (log ++ s.history h (s.trail h call)) reply.2
  | aside {log : List (Scheduler P R W × Move P)} {s : Scheduler P R W} {m : Move P} :
      Session h log s → isAside m → Session h (log ++ [(s, m)]) (s.move h m)

theorem Session.run (session : Session h log s) : Run h log s := by
  induction session with
  | new hs => exact .new hs
  | call _ _ hcall ih => exact ih.perform hcall
  | aside _ _ ih => exact ih.move _

theorem Session.punctual (session : Session h log s) : Punctual s := by
  induction session with
  | new hs =>
    obtain rfl := eq_of_new hs
    exact ⟨Pending.sound_new, fun timer hm => nomatch hm⟩
  | @call log s reply _ call hcall ih =>
    rw [perform_moves hcall]
    exact (ih.moves (paced_trail s h call)).1
  | @aside log s m _ haside ih =>
    refine ih.move h fun now heq => ?_
    cases m <;> cases haside <;> cases heq

/-- The clock is never set back. -/
theorem Run.clock_sorted (run : Run h log s) :
    (log.map (fun entry => entry.1.pending.clock) ++ [s.pending.clock]).Pairwise (· ≤ ·) := by
  induction run with
  | new hs => exact List.pairwise_singleton _ _
  | @move log s run m ih =>
    have hmove := clock_move s h m
    rw [List.map_append, List.pairwise_append]
    refine ⟨ih, List.pairwise_singleton _ _, fun a ha b hb => ?_⟩
    rw [List.mem_singleton.1 hb]
    rcases List.mem_append.1 ha with ha | ha
    · have hlast := (List.pairwise_append.1 ih).2.2 a ha _ (List.mem_singleton.2 rfl)
      exact Nat.le_trans hlast hmove
    · rw [List.mem_singleton.1 ha]
      exact hmove

/-! ## What fires -/

/-- The timer that fires in a move: an operation is completed, and the clock shows this time. -/
def firing? (entry : Scheduler P R W × Move P) : Option (Nat × OperationId) :=
  match entry.2 with
  | .deliver c => some (entry.1.pending.clock, c.operation)
  | _ => none

/-- The timers that fire in some moves, one after the other. -/
def firings (s : Scheduler P R W) (h : Host P R W) (ms : List (Move P)) :
    List (Nat × OperationId) :=
  (s.history h ms).filterMap firing?

theorem firings_append (s : Scheduler P R W) (h : Host P R W) (ms ms' : List (Move P)) :
    s.firings h (ms ++ ms') = s.firings h ms ++ (s.moves h ms).firings h ms' := by
  rw [firings, history_append, List.filterMap_append]
  rfl

@[simp] theorem firings_setClock (s : Scheduler P R W) (h : Host P R W) (now : Nat)
    (ms : List (Move P)) :
    s.firings h (.setClock now :: ms) = (s.setClock now).firings h ms :=
  rfl

@[simp] theorem firings_expire (s : Scheduler P R W) (h : Host P R W) (x : Nat × OperationId)
    (ms : List (Move P)) : s.firings h (.expire x :: ms) = (s.expire x).firings h ms :=
  rfl

@[simp] theorem firings_nil (s : Scheduler P R W) (h : Host P R W) : s.firings h [] = [] := rfl

/-- No timer fires in a run. -/
theorem not_firing_of_run (hms : ∀ m ∈ ms, m = .receive ∨ m = .step)
    {entry : Scheduler P R W × Move P} (he : entry ∈ s.history h ms) : firing? entry = none := by
  rcases hms entry.2 (move_mem_of_history he) with heq | heq <;> simp [firing?, heq]

theorem firings_of_run (hms : ∀ m ∈ ms, m = .receive ∨ m = .step) : s.firings h ms = [] :=
  List.filterMap_eq_nil_iff.2 fun _ he => not_firing_of_run hms he

theorem firings_complete (s : Scheduler P R W) (h : Host P R W) (c : Completion) :
    s.firings h (s.completeTrail h c) = [(s.pending.clock, c.operation)] := by
  obtain ⟨ms, heq, hms⟩ := completeTrail_eq s h c
  have hlist : s.firings h (.deliver c :: ms) =
      (s.pending.clock, c.operation) :: (s.move h (.deliver c)).firings h ms := rfl
  rw [heq, hlist, firings_of_run hms]

/-- A completion takes the operation off the table, and its timer out of the index. -/
theorem applyCompletion_awaited (s : Scheduler P R W) {owner : TaskId}
    (hfind : s.pending.awaited.find? op = some owner) (result : Except Failure Value) :
    ∃ r, s.applyCompletion ⟨op, result⟩ = (.ok (), r) ∧ r.pending = s.pending.discard op := by
  unfold applyCompletion
  simp only [hfind]
  split
  · exact ⟨_, rfl, rfl⟩
  · exact ⟨_, rfl, rfl⟩

theorem complete_eq {c : Completion} {r : Scheduler P R W}
    (happly : s.applyCompletion c = (.ok (), r)) (h : Host P R W) : s.complete h c = r.run h := by
  simp [complete, happly]

/-- When the first timer fires, the clock shows its deadline. -/
theorem Punctual.clock_due (hs : Punctual s) (hdue : s.pending.due? target = some x) :
    (s.expire x).pending.clock = x.1 :=
  Nat.max_eq_right (hs.timely x (Pending.due?_spec hdue).1)

theorem Punctual.expire (hs : Punctual s) (hdue : s.pending.due? target = some x) :
    Punctual (s.expire x) :=
  hs.elapses (Pending.elapses_expire s.pending x) (Pending.due?_le hdue)

theorem Punctual.complete (hs : Punctual s) (hdue : s.pending.due? target = some x)
    (hc : (s.expire x).complete h ⟨x.2, .ok .unit⟩ = reply) : Punctual reply.2 := by
  rw [← hc]
  exact (hs.expire hdue).proceeds (proceeds_complete _ h _)

/-- Once the first timer is taken out, it is over. -/
theorem Punctual.past (hs : Punctual s) (hdue : s.pending.due? target = some x) :
    (s.expire x).pending.Past x := by
  obtain ⟨hx, -, hleast⟩ := Pending.due?_spec hdue
  refine ⟨fun y hy => ?_, hs.sound.numbered.fresh _ (hs.sound.mem_awaited hx),
    Nat.le_of_eq (hs.clock_due hdue).symm⟩
  obtain ⟨hy, hne⟩ := List.mem_filter.1 hy
  refine Pending.earlier_of_ne (fun hop => ?_) (hleast y hy)
  exact of_decide_eq_true hne (hs.sound.timer_unique hy hx hop)

theorem Punctual.past_complete (hs : Punctual s) (hdue : s.pending.due? target = some x)
    (hc : (s.expire x).complete h ⟨x.2, .ok .unit⟩ = reply) : reply.2.pending.Past x := by
  rw [← hc]
  exact (hs.past hdue).proceeds (proceeds_complete _ h _)

/-- The first timer fires, and then others do. -/
theorem Punctual.firings_fired (hs : Punctual s) (hdue : s.pending.due? target = some x)
    (hc : (s.expire x).complete h ⟨x.2, .ok .unit⟩ = reply) (ms : List (Move P)) :
    s.firings h (.expire x :: (s.expire x).completeTrail h ⟨x.2, .ok .unit⟩ ++ ms) =
      x :: reply.2.firings h ms := by
  rw [List.cons_append, firings_expire, firings_append, firings_complete, ← complete_moves, hc,
    hs.clock_due hdue]
  rfl

theorem Punctual.firings_failed (hs : Punctual s) (hdue : s.pending.due? target = some x)
    (h : Host P R W) :
    s.firings h (.expire x :: (s.expire x).completeTrail h ⟨x.2, .ok .unit⟩) = [x] := by
  rw [firings_expire, firings_complete, hs.clock_due hdue]

/-- What has fired by now fires before all that fires from now on. -/
theorem Fires.later (hfires : Fires h target s ms reply) (hs : Punctual s)
    (hx : s.pending.Past x) : ∀ y ∈ s.firings h ms, Pending.earlier x y := by
  induction hfires with
  | done => simp
  | failed hdue hc =>
    rw [hs.firings_failed hdue]
    intro y hy
    rw [List.mem_singleton.1 hy]
    exact hx.later _ (Pending.due?_spec hdue).1
  | @fired s r z ms reply hdue hc _ ih =>
    have hpast := (hx.elapses (Pending.elapses_expire s.pending z)).proceeds
      (proceeds_complete (s.expire z) h ⟨z.2, .ok .unit⟩)
    rw [hc] at hpast
    rw [hs.firings_fired hdue hc]
    exact List.forall_mem_cons.2 ⟨hx.later _ (Pending.due?_spec hdue).1,
      ih (hs.complete hdue hc) hpast⟩

/-- Timers fire in the order of their deadlines, and then of their registration. -/
theorem Fires.sorted (hfires : Fires h target s ms reply) (hs : Punctual s) :
    (s.firings h ms).Pairwise fun x y => Pending.earlier x y := by
  induction hfires with
  | done => simp
  | failed hdue hc =>
    rw [hs.firings_failed hdue]
    exact List.pairwise_singleton _ _
  | fired hdue hc hrest ih =>
    have hpunctual := hs.complete hdue hc
    rw [hs.firings_fired hdue hc]
    exact List.pairwise_cons.2 ⟨hrest.later hpunctual (hs.past_complete hdue hc), ih hpunctual⟩

/-- A timer fires when the clock shows its deadline, and its operation is awaited. It has just been
taken out of the index, as the first that was there. -/
structure InTime (log : List (Scheduler P R W × Move P)) (entry : Scheduler P R W × Move P)
    (target : Nat) (x : Nat × OperationId) : Prop where
  delivers : entry.2 = .deliver ⟨x.2, .ok .unit⟩
  clock : entry.1.pending.clock = x.1
  due : x.1 ≤ target
  awaited : x.2 ∈ entry.1.pending.awaited.keys
  expired : ∃ before s after, log = before ++ (s, .expire x) :: entry :: after ∧
    x ∈ s.pending.timers ∧ ∀ y ∈ s.pending.timers, ¬Pending.earlier y x

theorem InTime.within {entry : Scheduler P R W × Move P} (hx : InTime log entry target x)
    (before after : List (Scheduler P R W × Move P)) :
    InTime (before ++ log ++ after) entry target x := by
  obtain ⟨before', s, after', rfl, hfirst⟩ := hx.expired
  exact ⟨hx.delivers, hx.clock, hx.due, hx.awaited, before ++ before', s, after' ++ after,
    by simp, hfirst⟩

theorem inTime_of_complete (hs : Punctual s) (hdue : s.pending.due? target = some x)
    {entry : Scheduler P R W × Move P} {y : Nat × OperationId}
    (he : entry ∈ s.history h (.expire x :: (s.expire x).completeTrail h ⟨x.2, .ok .unit⟩))
    (hfire : firing? entry = some y) :
    InTime (s.history h (.expire x :: (s.expire x).completeTrail h ⟨x.2, .ok .unit⟩))
      entry target y := by
  obtain ⟨hx, hle, hleast⟩ := Pending.due?_spec hdue
  have hclock := hs.clock_due hdue
  obtain ⟨ms, heq, hms⟩ := completeTrail_eq (s.expire x) h ⟨x.2, .ok .unit⟩
  rw [heq] at he ⊢
  rcases List.mem_cons.1 he with rfl | he
  · cases hfire
  · rcases List.mem_cons.1 he with rfl | he
    · have hy : y = x := (Option.some.inj hfire).symm.trans (Prod.ext hclock rfl)
      rw [hy]
      exact ⟨rfl, hclock, hle, hs.sound.mem_awaited hx, [], s, _, rfl, hx, hleast⟩
    · rw [not_firing_of_run hms he] at hfire
      cases hfire

/-- What fires after the first timer is found in what is left. -/
theorem history_fired (hc : (s.expire x).complete h ⟨x.2, .ok .unit⟩ = reply)
    (ms : List (Move P)) :
    s.history h (.expire x :: (s.expire x).completeTrail h ⟨x.2, .ok .unit⟩ ++ ms) =
      s.history h (.expire x :: (s.expire x).completeTrail h ⟨x.2, .ok .unit⟩) ++
        reply.2.history h ms := by
  rw [history_append, moves_cons, show s.move h (.expire x) = s.expire x from rfl,
    ← complete_moves, hc]

theorem Fires.inTime (hfires : Fires h target s ms reply) (hs : Punctual s) :
    ∀ entry ∈ s.history h ms, ∀ y, firing? entry = some y →
      InTime (s.history h ms) entry target y := by
  induction hfires with
  | done =>
    intro entry he y hfire
    rw [List.mem_singleton.1 he] at hfire
    cases hfire
  | failed hdue hc => exact fun entry he y hfire => inTime_of_complete hs hdue he hfire
  | fired hdue hc _ ih =>
    intro entry he y hfire
    rw [history_fired hc] at he ⊢
    rcases List.mem_append.1 he with he | he
    · exact (inTime_of_complete hs hdue he hfire).within [] _
    · simpa using (ih (hs.complete hdue hc) entry he y hfire).within _ []

/-- A timer that is taken out of the index fires. -/
theorem Fires.expired (hfires : Fires h target s ms reply) (hs : Punctual s)
    {entry : Scheduler P R W × Move P} (he : entry ∈ s.history h ms)
    (hx : entry.2 = .expire x) : x ∈ s.firings h ms := by
  have hfirst : ∀ {s : Scheduler P R W} {z : Nat × OperationId}, entry ∈ s.history h
      (.expire z :: (s.expire z).completeTrail h ⟨z.2, .ok .unit⟩) → x = z := by
    intro s z he
    rcases List.mem_cons.1 he with rfl | he
    · exact (Move.expire.inj hx).symm
    · have hnot := time?_of_completeTrail (move_mem_of_history he)
      rw [hx] at hnot
      cases hnot
  induction hfires with
  | done =>
    rw [List.mem_singleton.1 he] at hx
    cases hx
  | failed hdue hc =>
    rw [hs.firings_failed hdue, hfirst he]
    exact List.mem_singleton.2 rfl
  | fired hdue hc _ ih =>
    rw [hs.firings_fired hdue hc]
    rw [history_fired hc] at he
    rcases List.mem_append.1 he with he | he
    · exact hfirst he ▸ List.mem_cons_self
    · exact List.mem_cons_of_mem _ (ih (hs.complete hdue hc) he)

/-- In the end every timer is still to come. -/
theorem Fires.rest (hfires : Fires h target s ms (.ok (), s')) :
    ∀ timer ∈ s'.pending.timers, target < timer.1 := by
  generalize hreply : ((.ok (), s') : Reply P R W Unit) = reply at hfires
  induction hfires with
  | done hdue =>
    cases hreply
    exact Pending.due?_eq_none.1 hdue
  | failed => cases hreply
  | fired _ _ _ ih => exact ih hreply

/-! ## What does not fire -/

/-- The operation is not awaited any more after the move. -/
def Ceases (h : Host P R W) (op : OperationId) (entry : Scheduler P R W × Move P) : Prop :=
  op ∈ entry.1.pending.awaited.keys ∧ op ∉ (entry.1.move h entry.2).pending.awaited.keys

theorem entries_move (s : Scheduler P R W) (h : Host P R W) (m : Move P)
    {entry : OperationId × TaskId} (he : entry ∈ (s.move h m).pending.awaited.entries)
    (hid : entry.1.val < s.pending.nextId) : entry ∈ s.pending.awaited.entries := by
  rcases proceeds_move s h m with hp | ⟨now, -, helapses⟩
  · exact (hp.entries entry he).resolve_right (Nat.not_le.2 hid)
  · rwa [helapses.awaited] at he

theorem nextId_move (s : Scheduler P R W) (h : Host P R W) (m : Move P) :
    s.pending.nextId ≤ (s.move h m).pending.nextId := by
  rcases proceeds_move s h m with hp | ⟨now, -, he⟩
  · exact hp.next
  · exact Nat.le_of_eq he.next.symm

theorem nextId_moves (s : Scheduler P R W) (h : Host P R W) (ms : List (Move P)) :
    s.pending.nextId ≤ (s.moves h ms).pending.nextId := by
  induction ms generalizing s with
  | nil => exact Nat.le_refl _
  | cons m ms ih => exact Nat.le_trans (nextId_move s h m) (ih (s.move h m))

/-- An operation that is awaited has been awaited by the same task since its registration. -/
theorem entries_moves (s : Scheduler P R W) (h : Host P R W) (ms : List (Move P))
    {entry : OperationId × TaskId} (he : entry ∈ (s.moves h ms).pending.awaited.entries)
    (hid : entry.1.val < s.pending.nextId) : entry ∈ s.pending.awaited.entries := by
  induction ms generalizing s with
  | nil => exact he
  | cons m ms ih =>
    exact entries_move s h m (ih _ he (Nat.lt_of_lt_of_le hid (nextId_move s h m))) hid

/-- An operation that is not awaited any more will not be awaited again. -/
theorem not_awaited_moves (hid : op.val < s.pending.nextId) (hop : op ∉ s.pending.awaited.keys)
    (h : Host P R W) (ms : List (Move P)) : op ∉ (s.moves h ms).pending.awaited.keys := by
  intro hm
  obtain ⟨entry, he, rfl⟩ := List.mem_map.1 hm
  exact hop (List.mem_map_of_mem (entries_moves s h ms he hid))

/-- A timer leaves the index when its operation is not awaited any more, or when it is taken out by
itself. -/
theorem lost_cases (hs : s.pending.Sound) (hx : x ∈ s.pending.timers) {m : Move P}
    (hlost : x ∉ (s.move h m).pending.timers) : Ceases h x.2 (s, m) ∨ m = .expire x := by
  rcases proceeds_move s h m with hp | ⟨now, hnow, -⟩
  · exact Or.inl ⟨hs.mem_awaited hx, fun hop => hlost (hp.kept hs x hx hop)⟩
  · cases m with
    | setClock now => exact absurd hx hlost
    | expire y =>
      refine Or.inr (congrArg Move.expire ?_)
      by_contra hne
      exact hlost (List.mem_filter.2 ⟨hx, decide_eq_true (Ne.symm hne)⟩)
    | _ => cases hnow

/-- A timer that is not in the index in the end has left it in some move. -/
theorem exists_lost (hx : x ∈ s.pending.timers) (hgone : x ∉ (s.moves h ms).pending.timers) :
    ∃ entry ∈ s.history h ms, x ∈ entry.1.pending.timers ∧
      x ∉ (entry.1.move h entry.2).pending.timers := by
  induction ms generalizing s with
  | nil => exact absurd hx hgone
  | cons m ms ih =>
    by_cases hmove : x ∈ (s.move h m).pending.timers
    · obtain ⟨entry, he, hlost⟩ := ih hmove hgone
      exact ⟨entry, List.mem_cons_of_mem _ he, hlost⟩
    · exact ⟨(s, m), List.mem_cons_self, hx, hmove⟩

/-- An operation ceases to be awaited once. -/
theorem ceases_once (hsound : ∀ entry ∈ s.history h ms, entry.1.pending.Sound)
    {entry entry' : Scheduler P R W × Move P} (he : entry ∈ s.history h ms)
    (he' : entry' ∈ s.history h ms) (hc : Ceases h op entry) (hc' : Ceases h op entry') :
    entry = entry' := by
  induction ms generalizing s with
  | nil => cases he
  | cons m ms ih =>
    -- after the first move the operation is gone for good
    have hgone : Ceases h op (s, m) → ∀ entry ∈ (s.move h m).history h ms, ¬Ceases h op entry := by
      intro hfirst entry he hceases
      obtain ⟨ms₁, ms₂, rfl, hbefore⟩ := mem_history he
      have hid := (hsound (s, m) List.mem_cons_self).numbered.fresh op hfirst.1
      have hnot := not_awaited_moves (Nat.lt_of_lt_of_le hid (nextId_move s h m)) hfirst.2 h ms₁
      exact hnot (hbefore ▸ hceases.1)
    rcases List.mem_cons.1 he with rfl | he <;> rcases List.mem_cons.1 he' with rfl | he'
    · rfl
    · exact absurd hc' (hgone hc entry' he')
    · exact absurd hc (hgone hc' entry he)
    · exact ih (fun entry he => hsound entry (List.mem_cons_of_mem _ he)) he he'

theorem InTime.ceases {entry : Scheduler P R W × Move P} (hx : InTime log entry target x) :
    Ceases h x.2 entry := by
  obtain ⟨owner, hfind⟩ := Option.isSome_iff_exists.1 ((Table.mem_keys _ _).1 hx.awaited)
  obtain ⟨r, happly, hpending⟩ := applyCompletion_awaited entry.1 hfind (.ok .unit)
  refine ⟨hx.awaited, ?_⟩
  rw [hx.delivers, move, happly, hpending, Table.mem_keys, Pending.discard, Table.find?_erase]
  simp

/-! ## Advances -/

/-- How timers fire while so much time passes. -/
structure OnTime (h : Host P R W) (s : Scheduler P R W) (time : Nat)
    (log : List (Scheduler P R W × Move P)) (s' : Scheduler P R W) : Prop where
  /-- One after the other, by deadline and then by number. -/
  sorted : (log.filterMap firing?).Pairwise fun x y => Pending.earlier x y
  inTime : ∀ entry ∈ log, ∀ x, firing? entry = some x →
    InTime log entry (s.pending.clock + time) x
  /-- A timer that was pending at any moment fires if it is due by the end, unless its operation
  ceases to be awaited in another way. -/
  fires : ∀ entry ∈ log, ∀ x ∈ entry.1.pending.timers,
    x ∈ log.filterMap firing? ↔ x.1 ≤ s.pending.clock + time ∧
      ∀ entry' ∈ log, Ceases h x.2 entry' → firing? entry' = some x
  clock : s'.pending.clock = s.pending.clock + time
  rest : ∀ x ∈ s'.pending.timers, s'.pending.clock < x.1

theorem Punctual.fires (hs : Punctual s) (hpaced : Paced (s.history h ms))
    (hinTime : ∀ entry ∈ s.history h ms, ∀ x, firing? entry = some x →
      InTime (s.history h ms) entry target x)
    (hexpired : ∀ entry ∈ s.history h ms, entry.2 = .expire x → x ∈ s.firings h ms)
    (hrest : ∀ x ∈ (s.moves h ms).pending.timers, target < x.1)
    {entry : Scheduler P R W × Move P} (he : entry ∈ s.history h ms)
    (hx : x ∈ entry.1.pending.timers) :
    x ∈ s.firings h ms ↔ x.1 ≤ target ∧
      ∀ entry' ∈ s.history h ms, Ceases h x.2 entry' → firing? entry' = some x := by
  have hsound : ∀ entry ∈ s.history h ms, entry.1.pending.Sound :=
    fun entry he => ((hs.moves hpaced).2 entry he).sound
  constructor
  · intro hfired
    obtain ⟨entry₀, he₀, hfire⟩ := List.mem_filterMap.1 hfired
    have hx₀ := hinTime entry₀ he₀ x hfire
    refine ⟨hx₀.due, fun entry' he' hceases => ?_⟩
    rwa [ceases_once hsound he' he₀ hceases hx₀.ceases]
  · rintro ⟨hdue, hunique⟩
    obtain ⟨ms₁, ms₂, rfl, hbefore⟩ := mem_history he
    -- in the end the timer is not there any more
    have hgone : x ∉ (entry.1.moves h (entry.2 :: ms₂)).pending.timers := by
      intro hstays
      rw [moves_append, ← hbefore] at hrest
      exact absurd (hrest x hstays) (Nat.not_lt.2 hdue)
    obtain ⟨⟨r, m⟩, he', hthere, hlost⟩ := exists_lost hx hgone
    have hin : (r, m) ∈ s.history h (ms₁ ++ entry.2 :: ms₂) := by
      rw [history_append, ← hbefore]
      exact List.mem_append_right _ he'
    rcases lost_cases (hsound _ hin) hthere hlost with hceases | hexpire
    · exact List.mem_filterMap.2 ⟨_, hin, hunique _ hin hceases⟩
    · exact hexpired _ hin hexpire

/-- An advance that ends well is a run, and then timers fire. -/
theorem fires_of_advance {time fuel : Nat}
    (hadvance : s.advance h time fuel = some (.ok (), s')) :
    ∃ r ms, s.run h = (.ok (), r) ∧ s.trail h (.advance time fuel) = s.runTrail h ++ ms ∧
      Fires h (s.pending.clock + time) r ms (.ok (), s') := by
  have hclock := (proceeds_run s h).clock
  simp only [advance] at hadvance
  simp only [trail]
  cases hrun : s.run h with
  | mk answer r =>
    rw [hrun] at hadvance hclock
    cases answer with
    | error e => cases hadvance
    | ok u =>
      rw [← show r.pending.clock = s.pending.clock from hclock]
      exact ⟨r, _, rfl, rfl, fires_of_fireTimers _ fuel r hadvance⟩

theorem Punctual.onTime (hs : Punctual s) {time fuel : Nat}
    (hadvance : s.advance h time fuel = some (.ok (), s')) :
    OnTime h s time (s.history h (s.trail h (.advance time fuel))) s' := by
  have hpaced := paced_trail s h (.advance time fuel)
  have hcall : s.perform h (.advance time fuel) = some (.ok (), s') := hadvance
  have hmoves := perform_moves hcall
  have hclock : s'.pending.clock = s.pending.clock + time :=
    (Advances.idle ⟨fuel, hadvance, rfl⟩).2
  obtain ⟨r, ms, hrun, htrail, hfires⟩ := fires_of_advance hadvance
  have hr : s.moves h (s.runTrail h) = r := by rw [← run_moves, hrun]
  have hpunctual : Punctual r := by
    have hend := hs.proceeds (proceeds_run s h)
    rwa [hrun] at hend
  have hfirings : s.firings h (s.runTrail h ++ ms) = r.firings h ms := by
    rw [firings_append, firings_of_run fun m hm => mem_runTrail hm, hr, List.nil_append]
  have hinTime : ∀ entry ∈ s.history h (s.runTrail h ++ ms), ∀ x, firing? entry = some x →
      InTime (s.history h (s.runTrail h ++ ms)) entry (s.pending.clock + time) x := by
    intro entry he x hfire
    rw [history_append, hr] at he ⊢
    rcases List.mem_append.1 he with he | he
    · rw [not_firing_of_run (fun m hm => mem_runTrail hm) he] at hfire
      cases hfire
    · simpa using (hfires.inTime hpunctual entry he x hfire).within (s.history h (s.runTrail h)) []
  have hexpired : ∀ x, ∀ entry ∈ s.history h (s.runTrail h ++ ms), entry.2 = .expire x →
      x ∈ s.firings h (s.runTrail h ++ ms) := by
    intro x entry he hx
    rw [hfirings]
    rw [history_append, hr] at he
    rcases List.mem_append.1 he with he | he
    · have hnot := time?_of_runTrail (move_mem_of_history he)
      rw [hx] at hnot
      cases hnot
    · exact hfires.expired hpunctual he hx
  rw [htrail] at hpaced hmoves ⊢
  refine ⟨?_, hinTime, fun entry he x hx => ?_, hclock, fun x hx => hclock ▸ hfires.rest x hx⟩
  · have hsorted := hfires.sorted hpunctual
    rw [← hfirings] at hsorted
    exact hsorted
  · exact hs.fires hpaced hinTime (hexpired x) (hmoves ▸ hfires.rest) he hx

/-- Every timer belongs to an operation that is awaited, and none is behind the clock. -/
def Armed (s : Scheduler P R W) : Prop :=
  ∀ x ∈ s.pending.timers, s.pending.clock ≤ x.1 ∧
    ∃ owner, s.pending.awaited.find? x.2 = some owner

theorem Punctual.armed (hs : Punctual s) : Armed s :=
  fun x hx => ⟨hs.timely x hx, hs.sound.find_timer hx⟩

/-- Whatever a host does, no timer is ever behind the clock, nor the clock set back. When time
passes, the timers that are due fire in their order, each at its deadline, and those that are left
are still to come. -/
theorem Session.timers_on_time (session : Session h log s) :
    Armed s ∧ (∀ call, ∀ entry ∈ s.history h (s.trail h call), Armed entry.1) ∧
      (log.map (fun entry => entry.1.pending.clock) ++ [s.pending.clock]).Pairwise (· ≤ ·) ∧
      ∀ time fuel s', s.advance h time fuel = some (.ok (), s') →
        OnTime h s time (s.history h (s.trail h (.advance time fuel))) s' := by
  have hs := session.punctual
  refine ⟨hs.armed, fun call entry he => ?_, session.run.clock_sorted,
    fun time fuel s' hadvance => hs.onTime hadvance⟩
  exact ((hs.moves (paced_trail s h call)).2 entry he).armed

/-- Within four milliseconds the shorter nap ends, and the longer one has not. -/
theorem timers_on_time_naps :
    ∃ log s, Session naps log twoNaps ∧ twoNaps.advance naps 4 1 = some (.ok (), s) ∧
      OnTime naps twoNaps 4 (twoNaps.history naps (twoNaps.trail naps (.advance 4 1))) s ∧
      twoNaps.firings naps (twoNaps.trail naps (.advance 4 1)) = [(3, ⟨2⟩)] ∧
      s.pending.timers = [(5, ⟨1⟩)] := by
  have hnew : Session naps [] ({ world := () } : Scheduler Nat Unit Unit) := .new rfl
  have hfirst := hnew.call (.start 5 []) rfl
  have session := hfirst.call (.start 3 []) rfl
  have hadvance : twoNaps.advance naps 4 1 = some (.ok (), _) := rfl
  exact ⟨_, _, session, hadvance, session.timers_on_time.2.2.2 4 1 _ hadvance, rfl, rfl⟩

end Scheduler

end CoopTasks

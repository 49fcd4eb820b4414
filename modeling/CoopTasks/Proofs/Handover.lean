import CoopTasks.Proofs.Succession

/-!
# From one worker to the next

When a watcher that keeps the worker of the last notification forks the next one, all workers that
it forked before are being cancelled or have ended. The next worker comes last in the queue, so what
is queued for the others comes before it: it begins when all of them have been stepped with their
signals.
-/

namespace CoopTasks.Scheduler

variable {P R W : Type} {s : Scheduler P R W} {h : Host P R W} {t v w : TaskId}
variable {effect : Effect P W} {e first second : Scheduler P R W × Move P}
variable {log before middle after : List (Scheduler P R W × Move P)}

/-- In this entry of a log the task forks the given worker. -/
def Hires (h : Host P R W) (t : TaskId) (e : Scheduler P R W × Move P) (w : TaskId) : Prop :=
  e.2 = .step ∧ w = ⟨e.1.nextTask⟩ ∧
    ∃ worker args, e.1.turn? h = some (t, .yield (.fork worker args))

theorem Hires.forks (hhires : Hires h t e w) : Forks h e w := ⟨hhires.1, hhires.2.1, t, hhires.2.2⟩

/-- A worker is out of the way: it has settled, its process has ended, or it has been stepped with
its signal. -/
inductive Dismissed (h : Host P R W) (log : List (Scheduler P R W × Move P))
    (s : Scheduler P R W) (v : TaskId) : Prop where
  | settled : (∃ d ∈ settlements h log, d.id = v) → Dismissed h log s v
  | ended : (∃ u, s.task? v = some u ∧ u.process = none) → Dismissed h log s v
  | signalled : (∃ e ∈ log, Receives e v (.error (.cancelled v))) → Dismissed h log s v

/-! ## The workers of a watcher -/

theorem Run.watcher_not_branch (run : Run h log s) (hw : WatchesLatest h log t)
    (hturn : s.turn? h = some (t, .yield effect)) {u : Task P R W} (hu : s.task? t = some u) :
    u.role.isBranch = false := by
  by_contra hbranch
  rw [Bool.not_eq_false] at hbranch
  obtain ⟨v, process, -, -, -, hv, hp, -⟩ := turn_yield hturn
  obtain rfl := Option.some.inj (hu.symm.trans hv)
  obtain ⟨pattern, worker, args, stage, rfl⟩ := run.process_latest hw hu hp
  rcases run.scripted t u _ hu hbranch hp with hscript | ⟨own, hscript, -⟩ <;> cases hscript

/-- What a watcher forks is its own child. -/
theorem Run.hired_child (run : Run h log s) (hw : WatchesLatest h log t)
    (hhires : Hires h t (s, .step) v) : (s.move h .step).parent? v = some t := by
  obtain ⟨-, rfl, worker, args, hturn⟩ := hhires
  obtain ⟨p, u, -, hu, -, hparent, hacts, -⟩ := run.fork_parent hturn
  cases hacts with
  | self => rw [parent?_eq hu, hparent]
  | branch hbranch hrole =>
    rw [run.watcher_not_branch hw hturn hbranch] at hrole
    cases hrole

theorem Run.hired_earlier (run : Run h log s) (hw : WatchesLatest h log t) (hfirst : first ∈ log)
    (hhires : Hires h t first v) : (1 ≤ v.val ∧ v.val < s.nextTask) ∧
      ∀ u, s.task? v = some u → s.parent? v = some t := by
  obtain ⟨earlier, later, rfl, hearlier⟩ := run.of_mem first hfirst
  have hlater := run.later first hfirst
  obtain ⟨r, m⟩ := first
  obtain rfl : m = .step := hhires.1
  have hparent := hearlier.hired_child hw.of_append hhires
  have hid := (hearlier.move .step).tidy.forest.fresh v (isLive_of_parent hparent)
  have hpositive : 1 ≤ v.val := by
    rw [hhires.2.1]
    exact hearlier.roster.positive.1
  refine ⟨⟨hpositive, Nat.lt_of_lt_of_le hid hlater.next⟩, fun u hu => ?_⟩
  obtain ⟨u₀, hu₀, honward⟩ := hlater.onward v u hu hid
  rw [parent?_eq hu, honward.parent, ← parent?_eq hu₀, hparent]

theorem Run.dismissed_of_ended (run : Run h log s) (hid : 1 ≤ v.val ∧ v.val < s.nextTask)
    (hended : ∀ u, s.task? v = some u → u.process = none) : Dismissed h log s v := by
  cases hu : s.task? v with
  | some u => exact .ended ⟨u, hu, hended u hu⟩
  | none =>
    have hissued : s.issued v := by simp [Scheduler.issued, hid.1, hid.2]
    refine .settled ((run.roster.known v hissued).resolve_left fun hl => ?_)
    simp [isLive_eq, hu] at hl

/-- Who is out of the way stays out of the way. -/
theorem Dismissed.moves (hs : Dismissed h log s v) (run : Run h log s)
    (hid : 1 ≤ v.val ∧ v.val < s.nextTask) (ms : List (Move P)) :
    Dismissed h (log ++ s.history h ms) (s.moves h ms) v := by
  cases hs with
  | settled hd =>
    obtain ⟨d, hd, heq⟩ := hd
    exact .settled ⟨d, by simp [hd], heq⟩
  | ended hu =>
    obtain ⟨u, hu, hp⟩ := hu
    have hlater := later_moves s h ms
    refine (run.moves ms).dismissed_of_ended ⟨hid.1, Nat.lt_of_lt_of_le hid.2 hlater.next⟩
      fun u' hu' => ?_
    obtain ⟨u₀, hu₀, honward⟩ := hlater.onward v u' hu' hid.2
    obtain rfl := Option.some.inj (hu.symm.trans hu₀)
    exact honward.ended hp
  | signalled he =>
    obtain ⟨e, he, hreceives⟩ := he
    exact .signalled ⟨e, List.mem_append_left _ he, hreceives⟩

/-- When a watcher minds nobody, its workers are out of the way, or their signals are queued. -/
theorem Minds.outgoing (hs : Minds s t none) (run : Run h log s) (hw : WatchesLatest h log t)
    (hfirst : first ∈ log) (hhires : Hires h t first v) : Dismissed h log s v ∨
      s.beingCancelled v = true ∧ (v, .error (.cancelled v)) ∈ s.queue := by
  obtain ⟨hid, hchild⟩ := run.hired_earlier hw hfirst hhires
  by_cases hended : ∀ u, s.task? v = some u → u.process = none
  · exact .inl (run.dismissed_of_ended hid hended)
  · push Not at hended
    obtain ⟨u, hu, hp⟩ := hended
    have hc : s.beingCancelled v = true := by
      by_contra hcalm
      cases hs v (hchild u hu) (Bool.eq_false_iff.2 hcalm)
    rcases run.signal_sent hc hu (Option.isSome_iff_ne_none.2 hp) with hqueued | hreceived
    · exact .inr ⟨hc, hqueued⟩
    · exact .inl (.signalled hreceived)

/-- A signal that is queued when the next worker is forked is delivered before that worker begins.
-/
theorem Run.signalled_first (run : Run h log s) (hhires : Hires h t (s, .step) w) (hne : v ≠ t)
    (hc : s.beingCancelled v = true) (hqueued : (v, .error (.cancelled v)) ∈ s.queue)
    (ms : List (Move P))
    (hhead : ((s.move h .step).moves h ms).queue.head? = some (w, .value .unit))
    (hfresh : ∀ e ∈ (s.move h .step).history h ms, ∀ input, ¬Receives e w input) :
    ∃ e ∈ (s.move h .step).history h ms, Receives e v (.error (.cancelled v)) := by
  have hforks := hhires.forks
  obtain ⟨-, rfl, worker, args, hturn⟩ := hhires
  have run' := run.move (h := h) .step
  obtain ⟨u, process, input, rest, hq, -⟩ := turn_yield hturn
  have hother : s.queue.head? ≠ some (v, .error (.cancelled v)) := by
    rw [hq]
    exact fun heq => hne (Prod.mk.inj (Option.some.inj heq)).1.symm
  have hahead : Ahead (s.move h .step) (v, .error (.cancelled v)) (⟨s.nextTask⟩, .value .unit) :=
    sublist_of_forks hforks hqueued hother
  have hid := run.tidy.forest.fresh v (run.isLive_of_queued hqueued)
  have hl := run'.isLive_of_queued (hahead.subset List.mem_cons_self)
  -- the new worker is not signalled before it begins
  have hsame := run'.unsignalled_of_answer (hahead.subset (by simp)) (ms ++ [.step])
    (history_append _ h ms [.step]) hfresh ⟨rfl, hhead⟩
  exact run'.first_served hahead (fun heq => Nat.ne_of_lt hid (congrArg TaskId.val heq))
    ((later_move s h .step).beingCancelled hid hl hc) ms hhead hsame

/-- A worker does not begin before all that were forked by the same watcher before it are out of the
way. -/
theorem Run.dismissed_first (run : Run h ((before ++ first :: middle) ++ second :: after) s)
    (hw : WatchesLatest h ((before ++ first :: middle) ++ second :: after) t)
    (hfirst : Hires h t first v) (hsecond : Hires h t second w)
    (hhead : s.queue.head? = some (w, .value .unit))
    (hfresh : ∀ e ∈ (before ++ first :: middle) ++ second :: after, ∀ input,
      ¬Receives e w input) :
    Dismissed h ((before ++ first :: middle) ++ second :: after) s v := by
  obtain ⟨run', ms, rfl, rfl⟩ := run.cut
  obtain ⟨r, m⟩ := second
  obtain ⟨rfl, -, worker, args, hturn⟩ := id hsecond
  have hw' := hw.of_append
  obtain ⟨u, -, -, -, -, hu, -⟩ := turn_yield hturn
  obtain ⟨minded, hs⟩ := run'.succession hw' (by simp [isLive_eq, hu])
  obtain rfl := hs.free_of_fork run' hw' hturn
  rcases hs.minds.outgoing run' hw' (by simp) hfirst with hdismissed | ⟨hc, hqueued⟩
  · exact hdismissed.moves run' (run'.hired_earlier hw' (by simp) hfirst).1 (.step :: ms)
  · have hne : v ≠ t := by
      rintro rfl
      exact run'.silent_of_signal hw'.frail hqueued hturn
    obtain ⟨e, he, hreceives⟩ := run'.signalled_first hsecond hne hc hqueued ms hhead
      fun e he => hfresh e (by simp [he])
    exact .signalled ⟨e, by simp [he], hreceives⟩

/-- A watcher that keeps the worker of the last notification has one child at most that is not being
cancelled. No worker begins before all that the watcher forked before it have settled, have ended,
or have been stepped with their signals. -/
theorem Run.one_worker (run : Run h log s) (hw : WatchesLatest h log t) :
    (∀ v w, s.parent? v = some t → s.beingCancelled v = false → s.parent? w = some t →
      s.beingCancelled w = false → v = w) ∧
    ∀ before first middle second after v w,
      log = before ++ first :: (middle ++ second :: after) → Hires h t first v →
      Hires h t second w → s.queue.head? = some (w, .value .unit) →
      (∀ e ∈ log, ∀ input, ¬Receives e w input) → Dismissed h log s v := by
  refine ⟨fun v w hv hcalm hw' hcalm' => ?_,
    fun before first middle second after v w hlog hfirst hsecond hhead hfresh => ?_⟩
  · obtain ⟨minded, hs⟩ := run.succession hw (run.tidy.forest.isLive_parent hv)
    exact Option.some.inj ((hs.minds v hv hcalm).symm.trans (hs.minds w hw' hcalm'))
  · obtain rfl : log = (before ++ first :: middle) ++ second :: after := by simp [hlog]
    exact run.dismissed_first hw hfirst hsecond hhead hfresh

/-! ## Two workers -/

/-- The staff of a news desk. -/
inductive Staff where
  /-- Keeps the writer of the last event. -/
  | editor
  /-- Waits for a notification. -/
  | writer

def Staff.definition : Staff → Definition Staff Unit Unit
  | .editor => .watchLatest (.tag "event") .writer
  | .writer => .script [.take (.tag "print")]

def desk : Host Staff Unit Unit where
  program := ⟨fun _ => "staff", Staff.definition, fun state _ w => (.done .unit, state, w)⟩

/-- The editor waits, and is told of an event. -/
def opening : List (Move Staff) :=
  [.enroll .editor [], .step, .announce ⟨"event", .bool false⟩]

/-- The first writer is forked and begins, and the editor, who is told of another event, cancels it.
-/
def replacing : List (Move Staff) :=
  [.step, .step, .step, .announce ⟨"event", .bool true⟩, .step, .step]

def deskAfter (ms : List (Move Staff)) : Scheduler Staff Unit Unit :=
  moves { world := () } desk ms

/-- The second writer is forked, and is about to begin. -/
def replaced : List (Move Staff) := opening ++ replacing ++ [.step, .step]

theorem desk_run : Run desk (history { world := () } desk replaced) (deskAfter replaced) := by
  have hnew : Run desk [] ({ world := () } : Scheduler Staff Unit Unit) := .new rfl
  exact hnew.moves replaced

theorem desk_watches : WatchesLatest desk (history { world := () } desk replaced) ⟨1⟩ := by
  intro e he harrives
  have hothers : (((history { world := () } desk replaced).drop 1).all
      fun e => !decide (⟨1⟩ ∈ arrivals desk e)) = true := rfl
  rcases List.mem_cons.1 he with rfl | he
  · exact ⟨.tag "event", .writer, [], _, _, rfl, rfl, rfl⟩
  · have hnot := List.all_eq_true.1 hothers e he
    simp [harrives] at hnot

/-- The first writer has been stepped with its signal when the second begins, and is gone. -/
theorem one_worker_desk : (deskAfter replaced).queue.head? = some (⟨3⟩, .value .unit) ∧
    Dismissed desk (history { world := () } desk replaced) (deskAfter replaced) ⟨2⟩ := by
  obtain ⟨-, hdismissed⟩ := desk_run.one_worker desk_watches
  refine ⟨rfl, hdismissed (history { world := () } desk opening) (deskAfter opening, .step)
    ((deskAfter (opening ++ [.step])).history desk (replacing.drop 1))
    (deskAfter (opening ++ replacing), .step)
    ((deskAfter (opening ++ replacing ++ [.step])).history desk [.step]) ⟨2⟩ ⟨3⟩ rfl
    ⟨rfl, rfl, _, _, rfl⟩ ⟨rfl, rfl, _, _, rfl⟩ rfl ?_⟩
  have hids : (turns (history { world := () } desk replaced)).map Prod.fst =
    [⟨1⟩, ⟨1⟩, ⟨1⟩, ⟨2⟩, ⟨1⟩, ⟨2⟩, ⟨1⟩, ⟨1⟩] := rfl
  exact not_receives_of_turns hids (by decide)

end CoopTasks.Scheduler

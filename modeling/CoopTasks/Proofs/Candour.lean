import CoopTasks.Proofs.Overview
import CoopTasks.Proofs.Posture

/-!
# What is reported of live tasks

A live task that is queued is reported as running, and one that is not as waiting, with what it
waits for. Runs that are stopped half-way show where this fails. A task that is signalled while it
is suspended is queued and waits for nothing from then on, but its status still says that it waits,
until it is stepped: it is `Startled`. And a task that has stranded is running for good, in no
queue. All other live tasks are reported as they are.
-/

namespace CoopTasks.Scheduler

variable {P R W : Type} {s s' : Scheduler P R W} {h : Host P R W} {id : TaskId} {m : Move P}
variable {entry : Scheduler P R W × Move P} {log : List (Scheduler P R W × Move P)}
variable {stamp : Stamp}

/-- In this entry of a log a task that is suspended on an effect is signalled, and no task that
leaves answers it. -/
structure Startles (h : Host P R W) (entry : Scheduler P R W × Move P) (id : TaskId) : Prop where
  suspended : ∃ w, entry.1.wait? id = some w ∧ w ≠ .nothing ∧ w ≠ .children
  cancels : Cancels h entry id
  unanswered : ∀ d ∈ entry.1.departures h entry.2, ¬d.Wakes id

/-- The task has been startled, and it has not been stepped since. -/
def Startled (h : Host P R W) (log : List (Scheduler P R W × Move P)) (id : TaskId) : Prop :=
  ∃ before entry after, log = before ++ entry :: after ∧ Startles h entry id ∧
    ∀ e ∈ after, ∀ input, ¬Receives e id input

theorem startled_append : Startled h (log ++ [entry]) id ↔
    Startles h entry id ∨ Startled h log id ∧ ∀ input, ¬Receives entry id input :=
  since_append

/-- Whoever has been startled was live then. -/
theorem Run.known_of_startled (run : Run h log s) (hs : Startled h log id) :
    id.val < s.nextTask := by
  induction run with
  | new =>
    obtain ⟨before, entry, after, hlog, -⟩ := hs
    simp at hlog
  | @move log s run m ih =>
    have hnext := (later_move s h m).next
    rcases startled_append.1 hs with ⟨⟨w, hw, -⟩, -, -⟩ | ⟨hs, -⟩
    · obtain ⟨t, ht, -⟩ := Option.map_eq_some_iff.1 hw
      have hl : s.isLive id := by simp [isLive_eq, show s.task? id = some t from ht]
      exact (run.tidy.forest.fresh id hl).trans_le hnext
    · exact (ih hs).trans_le hnext

/-- What the record of a live task says: it is startled, or its status fits what it waits for. -/
structure Posed (h : Host P R W) (log : List (Scheduler P R W × Move P)) (s : Scheduler P R W)
    (id : TaskId) (t : Task P R W) : Prop where
  ready : t.wait = .nothing → ¬Startled h log id → t.status = .running
  startled : Startled h log id →
    t.wait = .nothing ∧ t.status = .waiting ∧ (id, .error (.cancelled id)) ∈ s.queue

/-- The step of a task ends its being startled. -/
theorem Run.posed_active (run : Run h log s) (hactive : id ∈ s.active) {t' : Task P R W}
    (ht' : (s.move h .step).task? id = some t') :
    Posed h (log ++ [(s, .step)]) (s.move h .step) id t' := by
  refine ⟨fun hw _ => run.ready_of_turn hactive ht' hw, fun hs => ?_⟩
  obtain ⟨input, hhead⟩ := mem_active.1 hactive
  rcases startled_append.1 hs with ⟨⟨w, hw, hne, -⟩, -, -⟩ | ⟨-, hnot⟩
  · have hqueued := run.wait_of_queued (List.mem_map_of_mem (List.mem_of_head? hhead))
    rw [hqueued, Option.some.injEq] at hw
    exact absurd hw.symm hne
  · exact absurd ⟨rfl, hhead⟩ (hnot input)

/-- Between its turns a task is startled by the last move, or was startled before and still is. -/
theorem startled_idle (hidle : m = .step → id ∉ s.active) :
    Startled h (log ++ [(s, m)]) id ↔ Startles h (s, m) id ∨ Startled h log id := by
  have hturn : ∀ input, ¬Receives (s, m) id input :=
    fun input hr => hidle hr.1 (mem_active.2 ⟨input, hr.2⟩)
  rw [startled_append, and_iff_left hturn]

section Idle

variable {t' : Task P R W} (run : Run h log s) (hidle : m = .step → id ∉ s.active)
  (hposed : ∀ t, s.task? id = some t → Posed h log s id t)
  (ht' : (s.move h m).task? id = some t')

include run hidle hposed ht'

/-- A task that was startled before is found so, and its signal stays in the queue. -/
theorem Run.still_startled (hs : Startled h log id) : ∃ t, s.task? id = some t ∧
    t.wait = .nothing ∧ t.status = .waiting ∧
      id ∈ s.queue.map Prod.fst ∧ (id, .error (.cancelled id)) ∈ (s.move h m).queue := by
  obtain ⟨t, ht, -⟩ := (later_move s h m).onward id t' ht' (run.known_of_startled hs)
  obtain ⟨hwait, hstatus, hqueued⟩ := (hposed t ht).startled hs
  refine ⟨t, ht, hwait, hstatus, List.mem_map_of_mem hqueued, ?_⟩
  rcases run.answerKept (h := h) m hqueued with ⟨hstep, hhead⟩ | hkept | ⟨hkept, -⟩
  · exact absurd (mem_active.2 ⟨_, hhead⟩) (hidle hstep)
  · exact hkept
  · exact hkept

/-- Where nobody is signalled nobody is startled. Whoever is startled is queued and not woken, for
nobody is queued twice. -/
theorem Run.posed_of_stirs (hs : Stirs s (s.move h m) id) :
    Posed h (log ++ [(s, m)]) (s.move h m) id t' := by
  refine ⟨fun hw hnot => ?_, fun hstartled => ?_⟩
  · rcases hs.task t' ht' with hne | ⟨hstatus, -⟩ | ⟨t, ht, hstatus, hwait⟩
    · exact absurd hw hne
    · exact hstatus
    · exact hstatus.trans ((hposed t ht).ready (hwait.symm.trans hw) fun hold =>
        hnot ((startled_idle hidle).2 (.inr hold)))
  · rcases (startled_idle hidle).1 hstartled with hnew | hold
    · have hcalm := hs.calm hnew.cancels.2
      simp [hnew.cancels.1] at hcalm
    obtain ⟨t, ht, hw, hstatus, hm, hkept⟩ :=
      run.still_startled hidle hposed ht' hold
    have hqueued := (run.move m).wait_of_queued (List.mem_map_of_mem hkept)
    have hw' := Option.some.inj ((wait?_of_live ht').symm.trans hqueued)
    refine ⟨hw', ?_, hkept⟩
    rcases hs.task t' ht' with hne | ⟨-, hlt | hnew⟩ | ⟨u, hu, hsame, -⟩
    · exact absurd hw' hne
    · -- its signal is queued already, and to be woken would queue it twice
      have hone : 0 < (s.waiters .nothing).count id := List.count_pos_iff.2 hm
      have honce : ((s.move h m).waiters .nothing).count id ≤ 1 :=
        ((run.move m).coherent.registered id).once
      omega
    · exact absurd (run.known_of_startled hold) (Nat.not_lt.2 hnew)
    · obtain rfl := Option.some.inj (ht.symm.trans hu)
      exact hsame.trans hstatus

/-- Nobody wakes the task. If it is signalled, and was suspended, it is startled. -/
theorem Run.posed_of_bides (hb : Bides s (s.move h m) id)
    (hwoken : ∀ d ∈ s.departures h m, ¬d.Wakes id) :
    Posed h (log ++ [(s, m)]) (s.move h m) id t' := by
  have hcases : Startled h (log ++ [(s, m)]) id ↔ Startles h (s, m) id ∨ Startled h log id :=
    startled_idle hidle
  obtain ⟨t, ht, hb⟩ := hb t' ht'
  have hwait := wait?_of_live ht
  have hfit := run.coherent.fit id t ht
  have hfit' := (run.move m).coherent.fit id t' ht'
  have hprocess : t.wait ≠ .children → t.process.isSome := fun hne =>
    Option.isSome_iff_ne_none.2 fun hp => hne (hfit.ended.1 hp)
  refine ⟨fun hw hnot => hb.status.trans ?_, fun hstartled => ?_⟩
  · have hnothing : t.wait = .nothing := by
      rcases hb.wait with ⟨-, hsame⟩ | ⟨hcalm, hcancel, -⟩
      · exact hsame.symm.trans hw
      · -- a signal that found it suspended would have startled it
        by_contra hne
        refine hnot (hcases.2
          (.inl ⟨⟨t.wait, hwait, hne, fun hchildren => ?_⟩, ⟨?_, ?_⟩, hwoken⟩))
        · have hp : t'.process = none := hb.process.trans (hfit.ended.2 hchildren)
          rw [hfit'.ended.1 hp] at hw
          cases hw
        · rw [beingCancelled_eq ht, hcalm]
        · rw [beingCancelled_eq ht', hcancel]
    exact (hposed t ht).ready hnothing fun hold => hnot (hcases.2 (.inr hold))
  · rcases hcases.1 hstartled with ⟨⟨w, hw, hne, hchildren⟩, ⟨hcalm, hcancel⟩, -⟩ | hold
    · obtain rfl := Option.some.inj (hwait.symm.trans hw)
      have hp := hprocess hchildren
      have hqueued := run.signal_of_cancelled m hidle ht hp hcalm hcancel
      have hw' := (run.move m).wait_of_queued (List.mem_map_of_mem hqueued)
      exact ⟨Option.some.inj ((wait?_of_live ht').symm.trans hw'),
        hb.status.trans (hfit.status hne), hqueued⟩
    · obtain ⟨u, hu, hw, hstatus, -, hkept⟩ := run.still_startled hidle hposed ht' hold
      obtain rfl := Option.some.inj (ht.symm.trans hu)
      exact ⟨hb.wait_eq_nothing (hprocess (by simp [hw])) hw, hb.status.trans hstatus, hkept⟩

/-- Whoever is woken while others leave waited for something, and is running after that. -/
theorem Run.posed_of_passes (hs : Passes s (s.move h m) (s.departures h m) id) :
    Posed h (log ++ [(s, m)]) (s.move h m) id t' := by
  by_cases hwoken : ∃ d ∈ s.departures h m, d.Wakes id
  · obtain ⟨d, hd, hwakes⟩ := hwoken
    obtain ⟨hready, t, ht, hwaits⟩ := hs.woken d hd hwakes
    refine ⟨fun _ _ => hready t' ht', fun hstartled => ?_⟩
    rcases (startled_idle hidle).1 hstartled with hnew | hold
    · exact absurd hwakes (hnew.unanswered d hd)
    · have hw := ((hposed t ht).startled hold).1
      obtain ⟨u, hu, hp⟩ := run.coherent.process_of_wait (wait?_of_live ht) (by simp [hw])
      obtain rfl := Option.some.inj (ht.symm.trans hu)
      exact absurd hw (hwaits hp)
  · push Not at hwoken
    exact run.posed_of_bides hidle hposed ht' (hs.bides hwoken) hwoken

end Idle

/-- Every live task is startled, or its status fits what it waits for. -/
theorem Run.posed (run : Run h log s) {t : Task P R W} (ht : s.task? id = some t) :
    Posed h log s id t := by
  induction run generalizing t with
  | new hs =>
    obtain rfl := eq_of_new hs
    cases ht
  | @move log s run m ih =>
    -- a task sets its own status in its turn; in all other moves others set it, or leave it
    by_cases hactive : m = .step ∧ id ∈ s.active
    · obtain ⟨rfl, hactive⟩ := hactive
      exact run.posed_active hactive ht
    · have hidle : m = .step → id ∉ s.active := fun hm hin => hactive ⟨hm, hin⟩
      rcases run.fares m hidle with hs | hs
      · exact run.posed_of_stirs hidle (fun _ => ih) ht hs
      · exact run.posed_of_passes hidle (fun _ => ih) ht hs

/-! ## Reports -/

/-- What is reported of a task is true: it is running if it is queued and waiting if it is not, and
its view in a snapshot says the same, and says what it waits for if it waits. -/
structure Truthful (s : Scheduler P R W) (stamp : Stamp) (id : TaskId) : Prop where
  running : s.status? id = some .running ↔ id ∈ s.queue.map Prod.fst
  waiting : s.status? id = some .waiting ↔ id ∉ s.queue.map Prod.fst
  shown : ∃ v ∈ (s.snapshot stamp).tasks, v.id = id
  view : ∀ v ∈ (s.snapshot stamp).tasks, v.id = id →
    s.status? id = some v.status ∧ (v.waitingOn.isSome ↔ v.status = .waiting)

theorem status?_of_live {t : Task P R W} (ht : s.task? id = some t) :
    s.status? id = some t.status := by
  rw [status?, ht, Option.map_some, Option.some_or]

theorem isSome_describe? (w : Wait) : w.describe?.isSome ↔ w ≠ .nothing := by
  cases w <;> simp [Wait.describe?]

theorem truthful_iff (he : Enlisted s) {t : Task P R W} (ht : s.task? id = some t) :
    Truthful s stamp id ↔ (t.status = .running ↔ id ∈ s.queue.map Prod.fst) ∧
      (t.status = .waiting ↔ id ∉ s.queue.map Prod.fst) ∧
        (t.wait ≠ .nothing ↔ t.status = .waiting) := by
  have hstatus := status?_of_live ht
  have hview : s.viewTask stamp id t ∈ (s.snapshot stamp).tasks :=
    (mem_tasks_snapshot he).2 ⟨t, ht, rfl⟩
  constructor
  · rintro ⟨hrunning, hwaiting, -, hviews⟩
    rw [hstatus, Option.some.injEq] at hrunning hwaiting
    exact ⟨hrunning, hwaiting, (isSome_describe? t.wait).symm.trans (hviews _ hview rfl).2⟩
  · rintro ⟨hrunning, hwaiting, hwait⟩
    refine ⟨by rwa [hstatus, Option.some.injEq], by rwa [hstatus, Option.some.injEq],
      ⟨_, hview, rfl⟩, fun v hv hid => ?_⟩
    subst hid
    obtain ⟨u, hu, hv⟩ := (mem_tasks_snapshot he).1 hv
    obtain rfl := Option.some.inj (ht.symm.trans hu)
    rw [hv]
    exact ⟨hstatus, (isSome_describe? t.wait).trans hwait⟩

/-- Reports are true but of the tasks that are startled or have stranded, and of these it is known
what they say. -/
structure Reported (h : Host P R W) (log : List (Scheduler P R W × Move P)) (s : Scheduler P R W)
    (stamp : Stamp) : Prop where
  truthful : ∀ id, s.isLive id →
    (Truthful s stamp id ↔ ¬Startled h log id ∧ ¬Stranded h log id)
  startled : ∀ id, s.isLive id → Startled h log id → s.status? id = some .waiting ∧
    (id, .error (.cancelled id)) ∈ s.queue ∧
      ∀ v ∈ (s.snapshot stamp).tasks, v.id = id → v.waitingOn = none
  stranded : ∀ id, Stranded h log id → s.isLive id ∧ s.status? id = some .running ∧
    id ∉ s.queue.map Prod.fst ∧
      ∀ v ∈ (s.snapshot stamp).tasks, v.id = id → v.waitingOn = none

/-- A task that is neither startled nor stranded is queued if it waits for nothing, and then it is
running; otherwise it is suspended. -/
theorem Run.truthful (run : Run h log s) {t : Task P R W} (ht : s.task? id = some t) :
    Truthful s stamp id ↔ ¬Startled h log id ∧ ¬Stranded h log id := by
  have hc := run.coherent
  have hposed := run.posed ht
  rw [truthful_iff run.enlisted ht]
  constructor
  · rintro ⟨hrunning, hwaiting, -⟩
    refine ⟨fun hs => ?_, fun hs => ?_⟩
    · obtain ⟨-, hstatus, hqueued⟩ := hposed.startled hs
      exact hwaiting.1 hstatus (List.mem_map_of_mem hqueued)
    · obtain ⟨u, hu, -, -, -, hstatus⟩ := (hc.lost id hs).live
      obtain rfl := Option.some.inj (ht.symm.trans hu)
      exact (hc.lost id hs).place .nothing (hrunning.1 hstatus)
  · rintro ⟨hnot, hsafe⟩
    have hplace := (hc.home id hsafe (by simp)).place .nothing
    by_cases hw : t.wait = .nothing
    · have hstatus := hposed.ready hw hnot
      have hqueued : id ∈ s.queue.map Prod.fst := by
        refine List.count_pos_iff.1 (hplace.trans ?_).ge
        simp [Wait.isListed, wait?_of_live ht, hw]
      simp [hstatus, hqueued, hw]
    · have hstatus := (hc.fit id t ht).status hw
      have hidle : id ∉ s.queue.map Prod.fst := by
        refine List.count_eq_zero.1 (hplace.trans ?_)
        simp [wait?_of_live ht, hw]
      simp [hstatus, hidle, hw]

/-- A call that ends well leaves nothing queued, and so nobody startled. -/
theorem Run.truthful_of_ok (run : Run h log s) {call : Call P}
    (hcall : s.perform h call = some (.ok (), s')) {t : Task P R W} (ht : s'.task? id = some t) :
    Truthful s' stamp id ↔ ¬Stranded h (log ++ s.history h (s.trail h call)) id := by
  have hrun := run.perform hcall
  have hcalm : ¬Startled h (log ++ s.history h (s.trail h call)) id := fun hs => by
    have hqueued := ((hrun.posed ht).startled hs).2.2
    rw [(idle_of_perform hcall).1] at hqueued
    cases hqueued
  rw [hrun.truthful ht, and_iff_right hcalm]

/-- A task that waits for nothing is shown to wait for nothing. -/
theorem waitingOn_of_wait (he : Enlisted s) (hw : s.wait? id = some .nothing) {v : TaskView}
    (hv : v ∈ (s.snapshot stamp).tasks) (hid : v.id = id) : v.waitingOn = none := by
  subst hid
  obtain ⟨t, ht, hv⟩ := (mem_tasks_snapshot he).1 hv
  rw [wait?_of_live ht, Option.some.injEq] at hw
  rw [hv]
  simp [viewTask, hw, Wait.describe?]

/-- Whatever calls were made, and however they ended, a live task is reported as running if it is
queued and as waiting if it is not, with what it waits for, if and only if it is neither startled
nor stranded. One that is startled is reported as waiting, and for nothing, while its signal is
queued; one that stranded as running, while nothing is queued for it. -/
theorem Run.reported (run : Run h log s) (stamp : Stamp) : Reported h log s stamp ∧
    ∀ call reply, s.perform h call = some reply →
      Reported h (log ++ s.history h (s.trail h call)) reply.2 stamp := by
  have hall : ∀ {log : List (Scheduler P R W × Move P)} {s : Scheduler P R W}, Run h log s →
      Reported h log s stamp := by
    intro log s run
    refine ⟨fun id hl => ?_, fun id hl hs => ?_, fun id hs => ?_⟩
    · obtain ⟨t, ht⟩ := Option.isSome_iff_exists.1 hl
      exact run.truthful ht
    · obtain ⟨t, ht⟩ : ∃ t, s.task? id = some t := Option.isSome_iff_exists.1 hl
      obtain ⟨hw, hstatus, hqueued⟩ := (run.posed ht).startled hs
      exact ⟨by rw [status?_of_live ht, hstatus], hqueued,
        fun v hv => waitingOn_of_wait run.enlisted (by rw [wait?_of_live ht, hw]) hv⟩
    · obtain ⟨⟨t, ht, -, -, hw, hstatus⟩, hplace⟩ := run.coherent.lost id hs
      exact ⟨by rw [isLive_eq, ht]; rfl,
        by rw [status?_of_live ht, hstatus], hplace .nothing,
        fun v hv => waitingOn_of_wait run.enlisted (by rw [wait?_of_live ht, hw]) hv⟩
  exact ⟨hall run, fun call reply hcall => hall (run.perform hcall)⟩

/-- The forker is blamed for its breaker in the step that stops the run. -/
def blamed : Scheduler Play Unit Unit := ((enroll { world := () } stage .forker []).2.run stage).2

/-- The run is stopped before the forker is stepped, which shows it startled. -/
theorem reported_forker : Startled stage (history { world := () } stage
      (trail { world := () } stage (.start .forker []))) ⟨1⟩ ∧
    (⟨1⟩, .error (.cancelled ⟨1⟩)) ∈ blamed.queue := by
  have hnew : Run stage [] ({ world := () } : Scheduler Play Unit Unit) := .new rfl
  have hreported := (hnew.reported ⟨⟨0⟩, ⟨0⟩, ⟨0, 0⟩, fun _ => ⟨0, 0⟩⟩).2 (.start .forker []) _ rfl
  have hlive : blamed.isLive ⟨1⟩ := by decide
  have hstatus : blamed.status? ⟨1⟩ = some .waiting := by decide
  have hqueued : ⟨1⟩ ∈ blamed.queue.map Prod.fst := by decide
  have hstartled : Startled stage (history { world := () } stage
      (trail { world := () } stage (.start .forker []))) ⟨1⟩ := by
    by_contra hnot
    refine ((hreported.truthful ⟨1⟩ hlive).2 ⟨hnot, fun hs => ?_⟩).waiting.1 hstatus hqueued
    have hrunning : blamed.status? ⟨1⟩ = some .running := (hreported.stranded ⟨1⟩ hs).2.1
    rw [hstatus] at hrunning
    cases hrunning
  exact ⟨hstartled, (hreported.startled ⟨1⟩ hlive hstartled).2.1⟩

/-- A call may leave a task that is queued and reported as waiting. -/
theorem not_always_truthful :
    ¬∀ (log : List (Scheduler Play Unit Unit × Move Play)) (s : Scheduler Play Unit Unit)
      (call : Call Play) (reply : Reply Play Unit Unit Unit) (stamp : Stamp) (id : TaskId),
      Run stage log s → s.perform stage call = some reply → reply.2.isLive id →
      Truthful reply.2 stamp id := by
  intro hall
  have hnew : Run stage [] ({ world := () } : Scheduler Play Unit Unit) := .new rfl
  have htrue : Truthful blamed ⟨⟨0⟩, ⟨0⟩, ⟨0, 0⟩, fun _ => ⟨0, 0⟩⟩ ⟨1⟩ :=
    hall [] _ (.start .forker []) _ _ ⟨1⟩ hnew rfl (by decide)
  exact htrue.waiting.1 (by decide) (by decide)

end CoopTasks.Scheduler

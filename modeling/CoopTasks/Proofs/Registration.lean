import CoopTasks.Proofs.Coherence.Moves

/-!
# Registration

Whatever the host calls and however the tasks interleave, every task is registered exactly once
under what it waits for, and nowhere else. Hence no effect is answered twice: an answer that is
queued reaches its task, or gives way to the signal that cancels the task. And hence no process is
stepped after its end.
-/

namespace CoopTasks.Scheduler

variable {P R W : Type} {s s' : Scheduler P R W} {h : Host P R W} {L X : Set TaskId}
variable {log : List (Scheduler P R W × Move P)}

/-- Where a task is registered, by what it waits for. -/
structure Registered (s : Scheduler P R W) (id : TaskId) : Prop where
  once : (s.queue.map Prod.fst).count id ≤ 1
  queued : id ∈ s.queue.map Prod.fst → ∃ t process, s.task? id = some t ∧
    t.process = some process ∧ process ≠ .ended ∧ t.wait = .nothing
  take : s.wait? id = some .take ↔ (s.takers.map Prod.fst).count id = 1
  channelTake : ∀ c, s.wait? id = some (.channelTake c) ↔ ∃ channel,
    s.channels.find? c = some channel ∧ channel.takers.count id = 1 ∧
      id ∉ channel.putters.map Prod.fst ∧ ∀ d other, s.channels.find? d = some other → d ≠ c →
        id ∉ other.takers ∧ id ∉ other.putters.map Prod.fst
  channelPut : ∀ c, s.wait? id = some (.channelPut c) ↔ ∃ channel,
    s.channels.find? c = some channel ∧ (channel.putters.map Prod.fst).count id = 1 ∧
      id ∉ channel.takers ∧ ∀ d other, s.channels.find? d = some other → d ≠ c →
        id ∉ other.takers ∧ id ∉ other.putters.map Prod.fst
  join : ∀ target, s.wait? id = some (.join target) ↔
    ∃ t, s.task? target = some t ∧ t.joiners.count id = 1
  group : ∀ g, s.wait? id = some (.group g) ↔
    ∃ group, s.groups.find? g = some group ∧ group.owner = id
  call : ∀ child, s.wait? id = some (.call child) → Called s child id
  children : s.wait? id = some .children ↔ ∃ t, s.task? id = some t ∧ t.process = none
  elsewhere : ∀ w, s.wait? id ≠ some w → id ∉ s.waiters w

/-- What is queued for a task is what it is stepped with in this move, or it stays queued; the
signal alone may take its place, when the move cancels the task. -/
def AnswerKept (s : Scheduler P R W) (h : Host P R W) (m : Move P) (id : TaskId) (input : Input) :
    Prop :=
  m = .step ∧ s.queue.head? = some (id, input) ∨
    (id, input) ∈ (s.move h m).queue ∨
      (id, .error (.cancelled id)) ∈ (s.move h m).queue ∧ s.beingCancelled id = false ∧
        (s.move h m).beingCancelled id = true

/-! ## One place for each task -/

theorem Coherent.count_waiters (hc : Coherent s L ∅) (id : TaskId) {w : Wait} (hlisted : w.isListed)
    (hne : w ≠ .nothing) : (s.waiters w).count id = if s.wait? id = some w then 1 else 0 := by
  by_cases hid : id ∈ L
  · obtain ⟨t, ht, -, -, hwait, -⟩ := (hc.lost id hid).live
    have hw : s.wait? id = some .nothing := by simp [wait?, ht, hwait]
    rw [List.count_eq_zero.2 ((hc.lost id hid).place w), hw]
    simp [Ne.symm hne]
  · rw [(hc.home id hid (by simp)).place, hlisted]
    simp

theorem Coherent.not_mem_elsewhere (hc : Coherent s L ∅) {id : TaskId} {w : Wait}
    (hw : s.wait? id ≠ some w) : id ∉ s.waiters w :=
  hc.not_mem_waiters (Or.inl hw)

theorem count_elim {α : Type} (entry : Option α) (list : α → List TaskId) (id : TaskId) :
    (entry.elim [] list).count id = 1 ↔ ∃ a, entry = some a ∧ (list a).count id = 1 := by
  cases entry <;> simp

theorem Coherent.registered (hc : Coherent s L ∅) (id : TaskId) : Registered s id := by
  have hcount : ∀ {w : Wait}, w.isListed → w ≠ .nothing →
      (s.wait? id = some w ↔ (s.waiters w).count id = 1) := by
    intro w hlisted hne
    rw [hc.count_waiters id hlisted hne]
    by_cases hw : s.wait? id = some w <;> simp [hw]
  have hother : ∀ {w : Wait}, s.wait? id = some w → ∀ d other, s.channels.find? d = some other →
      (w ≠ .channelTake d → id ∉ other.takers) ∧
        (w ≠ .channelPut d → id ∉ other.putters.map Prod.fst) := by
    intro w hw d other hd
    refine ⟨fun hne => ?_, fun hne => ?_⟩
    · rw [← waiters_channelTake hd]
      exact hc.not_mem_elsewhere (by simpa [hw] using hne)
    · rw [← waiters_channelPut hd]
      exact hc.not_mem_elsewhere (by simpa [hw] using hne)
  refine ⟨?_, fun hm => ?_, hcount rfl (by simp), fun c => ?_, fun c => ?_, fun target => ?_,
    fun g => ?_, fun child hw => ?_, ?_, fun w hw => hc.not_mem_elsewhere hw⟩
  · exact List.nodup_iff_count.1 (hc.nodup_waiters .nothing) id
  · obtain ⟨-, -, -, hwait, -⟩ := hc.of_mem_waiters (w := .nothing) hm
    obtain ⟨t, ht, hp⟩ := hc.process_of_wait hwait (by simp)
    obtain ⟨process, hp⟩ := Option.isSome_iff_exists.1 hp
    refine ⟨t, process, ht, hp, ?_, by simpa [wait?, ht] using hwait⟩
    rintro rfl
    exact (hc.fit id t ht).alive hp
  · rw [hcount rfl (by simp), waiters, count_elim]
    constructor
    · rintro ⟨channel, hfind, hone⟩
      have hw := (hcount (w := .channelTake c) rfl (by simp)).2 (by rwa [waiters_channelTake hfind])
      exact ⟨channel, hfind, hone, (hother hw c channel hfind).2 (by simp), fun d other hd hne =>
        ⟨(hother hw d other hd).1 (by simpa using hne.symm), (hother hw d other hd).2 (by simp)⟩⟩
    · rintro ⟨channel, hfind, hone, -⟩
      exact ⟨channel, hfind, hone⟩
  · rw [hcount rfl (by simp), waiters, count_elim]
    constructor
    · rintro ⟨channel, hfind, hone⟩
      have hw := (hcount (w := .channelPut c) rfl (by simp)).2 (by rwa [waiters_channelPut hfind])
      exact ⟨channel, hfind, hone, (hother hw c channel hfind).1 (by simp), fun d other hd hne =>
        ⟨(hother hw d other hd).1 (by simp), (hother hw d other hd).2 (by simpa using hne.symm)⟩⟩
    · rintro ⟨channel, hfind, hone, -⟩
      exact ⟨channel, hfind, hone⟩
  · rw [hcount rfl (by simp), waiters, count_elim]
  · rw [hcount rfl (by simp), waiters, count_elim]
    simp [List.count_singleton]
  · exact hc.called hw
  · rw [wait?, Option.map_eq_some_iff]
    exact exists_congr fun t => and_congr_right fun ht => (hc.fit id t ht).ended.symm

/-! ## Answers and ends -/

theorem Run.answerKept (run : Run h log s) (m : Move P) {id : TaskId} {input : Input}
    (hm : (id, input) ∈ s.queue) : AnswerKept s h m id input := by
  obtain ⟨t, process, ht, hp, -, -⟩ :=
    (run.coherent.registered id).queued (List.mem_map_of_mem (f := Prod.fst) hm)
  have hfresh := run.tidy.forest.fresh id (by simp [isLive_eq, ht])
  have hanswered : s.Answered id input t.cancelling :=
    ⟨hfresh, t, ht, by simp [hp], Or.inl ⟨hm, rfl⟩⟩
  have hkept : (s.move h m).Answered id input t.cancelling → AnswerKept s h m id input := by
    rintro ⟨-, u, hu, -, ⟨hq, -⟩ | ⟨hq, hcancel, hcalm⟩⟩
    · exact Or.inr (Or.inl hq)
    · refine Or.inr (Or.inr ⟨hq, ?_, ?_⟩)
      · rw [beingCancelled_eq ht, hcalm]
      · rw [beingCancelled_eq hu, hcancel]
  by_cases hstep : m = .step
  · subst hstep
    cases hq : s.queue with
    | nil => rw [hq] at hm; cases hm
    | cons entry rest =>
      obtain ⟨j, input'⟩ := entry
      rw [hq] at hm
      rcases List.mem_cons.1 hm with he | hrest
      · exact Or.inl ⟨rfl, by rw [hq, he]; rfl⟩
      · have hne : id ≠ j := by
          rintro rfl
          have honce := (run.coherent.registered id).once
          rw [hq, List.map_cons, List.count_cons_self] at honce
          have hpos := List.count_pos_iff.2 (List.mem_map_of_mem (f := Prod.fst) hrest)
          exact Nat.not_lt.2 (Nat.le_of_succ_le_succ honce) hpos
        have hpop : Answered { s with queue := rest } id input t.cancelling :=
          ⟨hfresh, t, ht, by simp [hp], Or.inl ⟨hrest, rfl⟩⟩
        apply hkept
        rw [move_step_cons h hq]
        exact (quiet_takeFault _).kept _ _ _ (hpop.step_of_ne hne h input')
  · exact hkept ((lasting_move s h hstep).kept _ _ _ hanswered)

/-- A task that finishes has no process from then on. -/
theorem ended_of_finish {id : TaskId} (hid : id.val < s.nextTask) (hl : s.isLive id)
    (h : Host P R W) (outcome : Outcome) {u : Task P R W}
    (hu : (s.finish h id outcome).task? id = some u) : u.process = none := by
  obtain ⟨t, ht⟩ := Option.isSome_iff_exists.1 hl
  have hlater : Later ((s.raiseOf id outcome).endProcess id outcome) (s.finish h id outcome) := by
    unfold finish
    simp only [show s.task? id = some t from ht]
    exact (quiet_cancelSubtrees _ _).later.trans (lasting_settle h id _).later
  have hnext : ((s.raiseOf id outcome).endProcess id outcome).nextTask = s.nextTask :=
    (quiet_raiseOf s id outcome).tree.next
  obtain ⟨v, hv, honward⟩ := hlater.onward id u hu (by rwa [hnext])
  refine honward.ended ?_
  obtain ⟨w, -, rfl⟩ : ∃ w, (s.raiseOf id outcome).task? id = some w ∧ _ = v := by
    simpa [endProcess] using hv
  rfl

/-- A process that answers with its end is gone after the step. -/
theorem ended_of_turn (htidy : Tidy s) {id : TaskId} {answer : Step P W}
    (hturn : s.turn? h = some (id, answer)) (hanswer : answer.isTerminal) :
    id.val < s.nextTask ∧ ∀ u, (s.move h .step).task? id = some u → u.process = none := by
  obtain ⟨t, process, input, rest, hq, ht, hp, rfl⟩ := process_of_turn hturn
  have hid := htidy.forest.fresh id (by simp [isLive_eq, ht])
  refine ⟨hid, fun u hu => ?_⟩
  have hfound : task? { s with queue := rest } id = some t := ht
  obtain ⟨process', world, hcase⟩ := step_of_process hfound hp h input
  rw [move_step_cons h hq] at hu
  rcases hcase with ⟨effect, hyield, -⟩ | ⟨answer, outcome, -, -, heq⟩
  · rw [show process.step h.program.resume input s.world = _ from hyield] at hanswer
    cases hanswer
  · rw [heq, finish_storeProcess (s := { s with queue := rest, world }) ht] at hu
    refine ended_of_finish (s := { s with queue := rest, world }) hid ?_ h outcome ?_
    · rw [isLive_eq, show task? { s with queue := rest, world } id = some t from ht]
      rfl
    · rwa [task?_of_tasks (tasks_takeFault _)] at hu

theorem Run.ended (run : Run h log s) {entry : Scheduler P R W × Move P} (he : entry ∈ log)
    (hstep : entry.2 = .step) {id : TaskId} {answer : Step P W}
    (hturn : entry.1.turn? h = some (id, answer)) (hanswer : answer.isTerminal) :
    id ∉ s.queue.map Prod.fst ∧ ∀ t, s.task? id = some t → t.process = none := by
  obtain ⟨before, after, -, hbefore⟩ := run.of_mem entry he
  obtain ⟨hid, hended⟩ := ended_of_turn hbefore.tidy hturn hanswer
  have hlater := run.later entry he
  have hissued := (later_move entry.1 h entry.2).next
  have hnone : ∀ t, s.task? id = some t → t.process = none := by
    intro t ht
    obtain ⟨u, hu, honward⟩ := hlater.onward id t ht (Nat.lt_of_lt_of_le hid hissued)
    rw [hstep] at hu
    exact honward.ended (hended u hu)
  refine ⟨fun hm => ?_, hnone⟩
  obtain ⟨t, process, ht, hp, -, -⟩ := (run.coherent.registered id).queued hm
  rw [hnone t ht] at hp
  cases hp

/-- At every moment of every run each task is registered once, for what it waits for. What is
queued for it is given to it or replaced by its signal, and after the end of its process nothing is
queued for it again. -/
theorem Run.registered_once (run : Run h log s) (id : TaskId) :
    Registered s id ∧
      (∀ call reply, s.perform h call = some reply → Registered reply.2 id) ∧
      (∀ m input, (id, input) ∈ s.queue → AnswerKept s h m id input) ∧
      ∀ entry ∈ log, entry.2 = .step → ∀ answer, entry.1.turn? h = some (id, answer) →
        answer.isTerminal → id ∉ s.queue.map Prod.fst := by
  refine ⟨run.coherent.registered id, fun call reply hcall => ?_, fun m input hm => ?_, ?_⟩
  · exact (run.perform hcall).coherent.registered id
  · exact run.answerKept m hm
  · intro entry he hstep answer hturn hanswer
    exact (run.ended he hstep hturn hanswer).1

/-- A listener that waits is registered, its answer survives, and once it has ended it stays out of
the queue. -/
theorem registered_once_listener :
    ((demoAfter [.enroll .listener [], .step]).takers.map Prod.fst).count ⟨1⟩ = 1 ∧
      AnswerKept (demoAfter [.enroll .listener []]) demo (.cancel ⟨1⟩) ⟨1⟩ (.value .unit) ∧
      (⟨1⟩ : TaskId) ∉ (demoAfter [.enroll .listener [], .step, .cancel ⟨1⟩, .step]).queue.map
        Prod.fst := by
  have hqueued : (⟨1⟩, .value .unit) ∈ (demoAfter [.enroll .listener []]).queue :=
    List.mem_cons_self
  have hlogged : (demoAfter [.enroll .listener [], .step, .cancel ⟨1⟩], .step) ∈
      history { world := () } demo [.enroll .listener [], .step, .cancel ⟨1⟩, .step] := by
    simp [history, demoAfter]
  refine ⟨?_, ?_, ?_⟩
  · exact ((demoAfter_run [.enroll .listener [], .step]).registered_once ⟨1⟩).1.take.1 (by decide)
  · exact ((demoAfter_run [.enroll .listener []]).registered_once ⟨1⟩).2.2.1 _ _ hqueued
  · exact ((demoAfter_run _).registered_once ⟨1⟩).2.2.2 _ hlogged rfl _ rfl rfl

end CoopTasks.Scheduler

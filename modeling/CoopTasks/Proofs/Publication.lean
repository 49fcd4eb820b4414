import CoopTasks.Proofs.Order

/-!
# Notifications and forks in order

A notification is shown to every observer and given to every task that waits for it before the task
that put it goes on. What a task forks comes last, so tasks begin in the order in which they were
forked. Both hold whatever the tasks in between do, because a move reorders nothing that is queued.
-/

namespace CoopTasks.Scheduler

variable {P R W : Type} {s r : Scheduler P R W} {h : Host P R W}
variable {n : Notification} {p child : TaskId} {ids : List TaskId} {v : Value}
variable {log : List (Scheduler P R W × Move P)} {e fork : Scheduler P R W × Move P}

/-! ## What a put does -/

/-- The tasks that wait for a notification, in the order in which they asked. -/
def matched (s : Scheduler P R W) (n : Notification) : List TaskId :=
  (s.takers.filter fun taker => taker.2.accepts n).map Prod.fst

/-- A notification is given to those, and no others, whose pattern it satisfies. -/
theorem mem_matched {id : TaskId} :
    id ∈ s.matched n ↔ ∃ pattern, (id, pattern) ∈ s.takers ∧ pattern.Matches n := by
  simp [matched, Pattern.accepts_iff]

/-- What is queued for the tasks that wait for a notification. -/
def notices (s : Scheduler P R W) (n : Notification) : List (TaskId × Input) :=
  (s.matched n).map fun id => (id, .value (.notification n))

/-- A task puts a notification on its turn. Every observer is shown it once, in the order of
subscription, and all who wait for it are queued before the task. These are the tasks whose pattern
it satisfies. -/
structure Publishes (h : Host P R W) (s : Scheduler P R W) (p : TaskId) (n : Notification) :
    Prop where
  matched : ∀ id, id ∈ s.matched n ↔ ∃ pattern, (id, pattern) ∈ s.takers ∧ pattern.Matches n
  world : (s.move h .step).world =
    h.sinks.foldl (fun world sink => sink n world) (s.turnWorld h)
  takers : (s.move h .step).takers = s.takers.filter fun taker => !taker.2.accepts n
  queue : (s.move h .step).queue = s.notices n ++ (p, .value .unit) :: s.queue.tail

theorem takers_wakeAll (s : Scheduler P R W) (ids : List TaskId) (v : Value) :
    (s.wakeAll ids v).takers = s.takers ∧ (s.wakeAll ids v).world = s.world :=
  List.foldlRecOn (motive := fun r : Scheduler P R W => r.takers = s.takers ∧ r.world = s.world)
    _ _ ⟨rfl, rfl⟩ fun _ hr _ _ => hr

theorem world_takeFault (s : Scheduler P R W) : s.takeFault.2.world = s.world := by
  unfold takeFault
  split <;> rfl

theorem takers_takeFault (s : Scheduler P R W) : s.takeFault.2.takers = s.takers := by
  unfold takeFault
  split <;> rfl

theorem publishes_of_turn (hturn : s.turn? h = some (p, .yield (.put n))) : Publishes h s p n := by
  obtain ⟨r, hr⟩ := yielded_of_turn hturn rfl
  have hmove := hr.move (r.put h p n) rfl
  have htakers : (r.publish h n).1 = s.matched n := by
    simp [publish, matched, hr.takers, List.partition_eq_filter_filter]
  have hleft : (r.publish h n).2.takers = s.takers.filter fun taker => !taker.2.accepts n := by
    simp [publish, hr.takers, List.partition_eq_filter_filter, Function.comp_def]
  have hworld : (r.publish h n).2.world =
      h.sinks.foldl (fun world sink => sink n world) (s.turnWorld h) := by
    rw [← hr.world]
    rfl
  have hqueue : (r.publish h n).2.queue = s.queue.tail := hr.queue
  obtain ⟨hsame, hsame'⟩ :=
    takers_wakeAll ((r.publish h n).2.answer p .unit) (r.publish h n).1 (.notification n)
  refine ⟨fun _ => mem_matched, ?_, ?_, ?_⟩ <;> rw [hmove]
  · exact (world_takeFault _).trans (hsame'.trans hworld)
  · exact (takers_takeFault _).trans (hsame.trans hleft)
  · rw [queue_takeFault, put, queue_wakeAll, htakers]
    exact congrArg (fun rest => s.notices n ++ (p, .value .unit) :: rest) hqueue

/-- Until the task that put a notification is given its answer, all who waited for it are stepped
with it, in the order in which they asked, or lose it to a cancellation. -/
theorem Run.noticed_first (run : Run h log s) (hp : Publishes h s p n) (ms : List (Move P))
    {before after : List (Scheduler P R W × Move P)}
    (hms : (s.move h .step).history h ms = before ++ e :: after)
    (hfirst : ∀ entry ∈ before, ∀ input, ¬Receives entry p input)
    (hturn : Receives e p (.value .unit)) : InOrder h (s.notices n) before := by
  have hqueue : (s.notices n ++ [(p, Input.value .unit)]).Sublist (s.move h .step).queue := by
    rw [hp.queue]
    exact (List.Sublist.refl _).append (List.singleton_sublist.2 List.mem_cons_self)
  have hanswer : (p, Input.value .unit) ∈ (s.move h .step).queue := hqueue.subset (by simp)
  have hnext := run.move (h := h) .step
  exact hnext.served_in_order hqueue ms hms hturn
    (hnext.unsignalled_of_answer hanswer ms hms hfirst hturn)

/-! ## What a fork does -/

/-- In this entry of a log a task forks the given one. -/
def Forks (h : Host P R W) (entry : Scheduler P R W × Move P) (child : TaskId) : Prop :=
  entry.2 = .step ∧ child = ⟨entry.1.nextTask⟩ ∧
    ∃ p process args, entry.1.turn? h = some (p, .yield (.fork process args))

theorem queue_fork (s : Scheduler P R W) (h : Host P R W) (id : TaskId) (process : P)
    (args : List Value) : (s.fork h id process args).queue =
      (id, .value (.task ⟨s.nextTask⟩)) :: (s.queue ++ [(⟨s.nextTask⟩, .value .unit)]) :=
  rfl

/-- What is forked comes last, and the task that forked it goes on at once. -/
theorem queue_of_fork {process : P} {args : List Value}
    (hturn : s.turn? h = some (p, .yield (.fork process args))) : (s.move h .step).queue =
      (p, .value (.task ⟨s.nextTask⟩)) :: (s.queue.tail ++ [(⟨s.nextTask⟩, .value .unit)]) := by
  obtain ⟨r, hr⟩ := yielded_of_turn hturn rfl
  rw [hr.move (r.fork h p process args) rfl, queue_takeFault, queue_fork, hr.queue, hr.next]

theorem queue_of_forks (hf : Forks h (s, .step) child) : ∃ p, (s.move h .step).queue =
    (p, .value (.task child)) :: (s.queue.tail ++ [(child, .value .unit)]) := by
  obtain ⟨-, rfl, p, process, args, hturn⟩ := hf
  exact ⟨p, queue_of_fork hturn⟩

/-- What is queued already stands before what is forked, unless it is its turn. -/
theorem sublist_of_forks {x : TaskId × Input} (hf : Forks h (s, .step) child) (hx : x ∈ s.queue)
    (hhead : s.queue.head? ≠ some x) :
    ([x] ++ [(child, Input.value .unit)]).Sublist (s.move h .step).queue := by
  obtain ⟨p, hqueue⟩ := queue_of_forks hf
  have hrest := sublist_popped (List.singleton_sublist.2 hx) .step fun _ => hhead
  rw [hqueue]
  exact (hrest.append (List.Sublist.refl _)).trans (List.sublist_cons_self _ _)

/-- A task begins after all that were forked before it, unless these are cancelled first. -/
theorem Run.begins_after (run : Run h log s) {child child' : TaskId}
    (hfirst : Forks h (s, .step) child) (ms : List (Move P))
    {before middle after : List (Scheduler P R W × Move P)}
    (hms : (s.move h .step).history h ms = before ++ fork :: (middle ++ e :: after))
    (hsecond : Forks h fork child') {input : Input} (hturn : Receives e child' input)
    (hcalm : e.1.beingCancelled child' = false) :
    ∃ entry ∈ before ++ fork :: middle, Receives entry child (.value .unit) ∨
      Loses h entry (child, .value .unit) := by
  obtain ⟨p, hqueue⟩ := queue_of_forks hfirst
  obtain ⟨ms₁, ms₂, -, rfl, hstate, hafter⟩ := history_cut hms
  obtain ⟨r, m⟩ := fork
  obtain rfl : r = (s.move h .step).moves h ms₁ := hstate
  obtain rfl : m = .step := hsecond.1
  have hnext := run.move (h := h) .step
  have hlater := (hnext.moves ms₁).move (h := h) .step
  have hentry : (child, Input.value .unit) ∈ (s.move h .step).queue := by
    rw [hqueue]
    simp
  rcases hnext.stays_queued hentry ms₁ with hstays | ⟨entry, he, hentry⟩
  · by_cases hhead : ((s.move h .step).moves h ms₁).queue.head? = some (child, .value .unit)
    · exact ⟨_, List.mem_append_right _ List.mem_cons_self, Or.inl ⟨rfl, hhead⟩⟩
    · -- the first one still stands before the second
      have hline := sublist_of_forks hsecond hstays hhead
      have hlast : (child', Input.value .unit) ∈
          (((s.move h .step).moves h ms₁).move h .step).queue := hline.subset (by simp)
      have hcalm' := hlater.calm_before hlast hafter.symm hturn hcalm
      have hin := hlater.served_in_order hline ms₂ hafter.symm hturn (hcalm.trans hcalm'.symm)
      obtain ⟨entry, he, hserved⟩ := hin.served List.mem_cons_self
      exact ⟨entry, List.mem_append_right _ (List.mem_cons_of_mem _ he), hserved⟩
  · exact ⟨entry, List.mem_append_left _ he, hentry⟩

/-! ## In order -/

/-- What is queued is never reordered. Hence a notification reaches all who wait for it, in the order
in which they asked, before the task that put it goes on, and forked tasks begin in the order of
their forks. An entry that a cancellation removes is the only one that is not served. -/
theorem Run.delivered_in_order (run : Run h log s) :
    (∀ m, Shifts (fun id => ¬Cancels h (s, m) id) (s.popped m) (s.move h m)) ∧
    (∀ p n, s.turn? h = some (p, .yield (.put n)) → Publishes h s p n ∧
      ∀ ms before e after, (s.move h .step).history h ms = before ++ e :: after →
        (∀ entry ∈ before, ∀ input, ¬Receives entry p input) → Receives e p (.value .unit) →
        InOrder h (s.notices n) before) ∧
    ∀ child, Forks h (s, .step) child →
      (∃ p, (s.move h .step).queue =
        (p, .value (.task child)) :: (s.queue.tail ++ [(child, .value .unit)])) ∧
      ∀ ms before fork middle e after child' input,
        (s.move h .step).history h ms = before ++ fork :: (middle ++ e :: after) →
        Forks h fork child' → Receives e child' input → e.1.beingCancelled child' = false →
        ∃ entry ∈ before ++ fork :: middle, Receives entry child (.value .unit) ∨
          Loses h entry (child, .value .unit) := by
  refine ⟨run.shifts, fun p n hturn => ?_, fun child hfirst => ⟨queue_of_forks hfirst, ?_⟩⟩
  · have hp := publishes_of_turn hturn
    exact ⟨hp, fun ms before e after hms hnone => run.noticed_first hp ms hms hnone⟩
  · intro ms before fork middle e after child' input hms hsecond hturn hcalm
    exact run.begins_after hfirst ms hms hsecond hturn hcalm

/-- Scripts around one notification. -/
inductive Crier where
  /-- Waits for a notification. -/
  | hearer
  /-- Waits for the weather. -/
  | farmer
  /-- Puts the news. -/
  | crier
  /-- Forks two who wait. -/
  | parent

def news : Notification := ⟨"news", .null⟩

def Crier.effects : Crier → List (Effect Crier (List String))
  | .hearer => [.take .wildcard]
  | .farmer => [.take (.tag "weather")]
  | .crier => [.put news]
  | .parent => [.fork .hearer [], .fork .hearer []]

/-- The world is the list of tags that were shown to the one observer. -/
def square : Host Crier Unit (List String) where
  program := ⟨fun _ => "crier", fun p => .script p.effects, fun state _ w => (.done .unit, state, w)⟩
  sinks := [fun n w => w ++ [n.tag]]

def squareAfter (ms : List (Move Crier)) : Scheduler Crier Unit (List String) :=
  moves { world := [] } square ms

theorem squareAfter_run (ms : List (Move Crier)) :
    Run square (history { world := [] } square ms) (squareAfter ms) := by
  have hnew : Run square [] (({ world := [] } : Scheduler Crier Unit (List String))) := .new rfl
  exact hnew.moves ms

/-- Two wait for the news and one for the weather, and the crier is about to put the news. -/
def newsDay : Scheduler Crier Unit (List String) :=
  squareAfter [.enroll .hearer [], .enroll .farmer [], .enroll .hearer [], .step, .step, .step,
    .enroll .crier []]

/-- A task is about to fork two others. -/
def birthday : Scheduler Crier Unit (List String) := squareAfter [.enroll .parent []]

/-- Two who wait get the news before the crier goes on, the one who waits for the weather is left
waiting, and the first of two forked tasks begins first. -/
theorem delivered_in_order_news :
    (newsDay.move square .step).world = ["news"] ∧
    (newsDay.takers.map Prod.fst = [⟨1⟩, ⟨2⟩, ⟨3⟩] ∧ ⟨2⟩ ∉ newsDay.matched news) ∧
    (newsDay.move square .step).takers.map Prod.fst = [⟨2⟩] ∧
    (newsDay.move square .step).queue.map Prod.fst = [⟨1⟩, ⟨3⟩, ⟨4⟩] ∧
    InOrder square (newsDay.notices news)
      ((newsDay.move square .step).history square [.step, .step]) ∧
    ∃ entry ∈ (birthday.move square .step).history square [.step, .step, .step],
      Receives entry ⟨2⟩ (.value .unit) ∨ Loses square entry (⟨2⟩, .value .unit) := by
  have run : Run square _ newsDay := squareAfter_run _
  have run' : Run square _ birthday := squareAfter_run _
  obtain ⟨hp, hlater⟩ := run.delivered_in_order.2.1 ⟨4⟩ news rfl
  obtain ⟨-, hfork⟩ := run'.delivered_in_order.2.2 ⟨2⟩ ⟨rfl, rfl, ⟨1⟩, .hearer, [], rfl⟩
  have hids : (turns ((newsDay.move square .step).history square [.step, .step])).map Prod.fst =
      [⟨1⟩, ⟨3⟩] := rfl
  have htakers : newsDay.takers =
      [(⟨1⟩, .wildcard), (⟨2⟩, .tag "weather"), (⟨3⟩, .wildcard)] := rfl
  have hunmatched : ⟨2⟩ ∉ newsDay.matched news := by
    intro hm
    obtain ⟨pattern, htaker, hmatches⟩ := (hp.matched ⟨2⟩).1 hm
    obtain rfl : pattern = .tag "weather" := by simpa [htakers] using htaker
    exact absurd (Pattern.accepts_iff.2 hmatches) (by decide)
  refine ⟨hp.world, ⟨by rw [htakers]; rfl, hunmatched⟩, by rw [hp.takers]; rfl, by rw [hp.queue]; rfl, ?_, ?_⟩
  · exact hlater [.step, .step, .step] _ _ [] rfl (not_receives_of_turns hids (by decide))
      ⟨rfl, rfl⟩
  · exact hfork [.step, .step, .step, .step] [] _ _ _ [] ⟨3⟩ (.value .unit) rfl
      ⟨rfl, rfl, ⟨1⟩, .hearer, [], rfl⟩ ⟨rfl, rfl⟩ rfl

end CoopTasks.Scheduler

import CoopTasks.Proofs.Fairness

/-!
# The order of turns

What is queued is never reordered. A move takes out the entries of the tasks that it signals, and
what it adds goes to one of the two ends, so a task whose turn comes finds that all who stood before
it have had theirs, in the order in which they stood, or were signalled before.
-/

namespace CoopTasks.Scheduler

variable {P R W : Type} {s s' r : Scheduler P R W} {h : Host P R W}
variable {A : Set TaskId} {Q : Input → Prop} {D : List (Departure P R W)} {d : Departure P R W}
variable {kept kept' : TaskId → Bool} {x y : TaskId × Input} {entries : List (TaskId × Input)}
variable {log log' : List (Scheduler P R W × Move P)} {e : Scheduler P R W × Move P}
variable {id : TaskId} {input : Input} {m : Move P}

/-! ## Turns -/

/-- What is taken off the queue in an entry of a log. -/
def served? (entry : Scheduler P R W × Move P) : Option (TaskId × Input) :=
  match entry.2 with
  | .step => entry.1.queue.head?
  | _ => none

/-- The tasks that are stepped, in order, each with what it is stepped with. -/
def turns (log : List (Scheduler P R W × Move P)) : List (TaskId × Input) := log.filterMap served?

/-- In this entry of a log a task is signalled that was still to be stepped with something else. -/
def Loses (h : Host P R W) (entry : Scheduler P R W × Move P) (x : TaskId × Input) : Prop :=
  x ∈ entry.1.queue ∧ Cancels h entry x.1

/-- What is listed is stepped with in a log in this order, but for entries that are lost. -/
def InOrder (h : Host P R W) (entries : List (TaskId × Input))
    (log : List (Scheduler P R W × Move P)) : Prop :=
  ∃ kept : List (TaskId × Input), kept.Sublist entries ∧ kept.Sublist (turns log) ∧
    ∀ x ∈ entries, x ∈ kept ∨ ∃ entry ∈ log, Loses h entry x

instance (entry : Scheduler P R W × Move P) : Decidable (Cancels h entry id) :=
  inferInstanceAs (Decidable (_ ∧ _))

theorem served?_eq_some {entry : Scheduler P R W × Move P} :
    served? entry = some x ↔ Receives entry x.1 x.2 := by
  obtain ⟨s, m⟩ := entry
  cases m <;> simp [served?, Receives]

theorem mem_turns : x ∈ turns log ↔ ∃ entry ∈ log, Receives entry x.1 x.2 := by
  simp [turns, List.mem_filterMap, served?_eq_some]

/-- A task that is not among those stepped is given nothing. -/
theorem not_receives_of_turns {ids : List TaskId} (hids : (turns log).map Prod.fst = ids)
    (hid : id ∉ ids) : ∀ entry ∈ log, ∀ input, ¬Receives entry id input := by
  intro entry he input hturn
  have hin : (id, input) ∈ turns log := mem_turns.2 ⟨entry, he, hturn⟩
  exact hid (hids ▸ List.mem_map.2 ⟨_, hin, rfl⟩)

@[simp] theorem turns_nil : turns ([] : List (Scheduler P R W × Move P)) = [] := rfl

@[simp] theorem turns_append : turns (log ++ log') = turns log ++ turns log' :=
  List.filterMap_append

theorem turns_cons (entry : Scheduler P R W × Move P) :
    turns (entry :: log) = (served? entry).toList ++ turns log := by
  cases hs : served? entry <;> simp [turns, hs]

theorem turns_sublist_cons (entry : Scheduler P R W × Move P) :
    (turns log).Sublist (turns (entry :: log)) := by
  rw [turns_cons]
  exact List.sublist_append_right _ _

/-- What is listed is stepped with or lost. -/
theorem InOrder.served (hs : InOrder h entries log) (hx : x ∈ entries) :
    ∃ entry ∈ log, Receives entry x.1 x.2 ∨ Loses h entry x := by
  obtain ⟨kept, -, hturns, hlost⟩ := hs
  rcases hlost x hx with hin | ⟨entry, he, hloses⟩
  · obtain ⟨entry, he, hreceives⟩ := mem_turns.1 (hturns.subset hin)
    exact ⟨entry, he, Or.inl hreceives⟩
  · exact ⟨entry, he, Or.inr hloses⟩

/-! ## What happens to a queue -/

/-- What is queued for the tasks that are kept stays, in its order. What is added is added at the
ends. -/
def Shifts (kept : TaskId → Bool) (s s' : Scheduler P R W) : Prop :=
  ∃ front back, s'.queue = front ++ s.queue.filter (fun entry => kept entry.1) ++ back

theorem Shifts.of_queue (hq : s'.queue = s.queue) : Shifts (fun _ => true) s s' :=
  ⟨[], [], by simp [hq]⟩

theorem Shifts.congr (hs : Shifts kept s s')
    (hkept : ∀ entry ∈ s.queue, kept entry.1 = kept' entry.1) : Shifts kept' s s' := by
  obtain ⟨front, back, hq⟩ := hs
  exact ⟨front, back, by rw [hq, List.filter_congr hkept]⟩

theorem Shifts.trans (hs : Shifts kept s r) (hs' : Shifts kept' r s') :
    Shifts (fun id => kept id && kept' id) s s' := by
  obtain ⟨front, back, hq⟩ := hs
  obtain ⟨front', back', hq'⟩ := hs'
  refine ⟨front' ++ front.filter (kept' ·.1), back.filter (kept' ·.1) ++ back', ?_⟩
  rw [hq', hq]
  simp [List.filter_filter, Bool.and_comm]

/-- The entries of kept tasks stay in their order. -/
theorem Shifts.sublist (hs : Shifts kept s s') (hqueue : entries.Sublist s.queue) :
    (entries.filter fun entry => kept entry.1).Sublist s'.queue := by
  obtain ⟨front, back, hq⟩ := hs
  rw [hq]
  refine (hqueue.filter _).trans (.trans ?_ (List.sublist_append_left _ _))
  exact List.sublist_append_right _ _

/-- A task is being cancelled in both states or in neither. -/
def unmoved (s s' : Scheduler P R W) (id : TaskId) : Bool :=
  s'.beingCancelled id == s.beingCancelled id

theorem unmoved_eq_and (hfirst : s.beingCancelled id = true → r.beingCancelled id = true)
    (hlast : r.beingCancelled id = true → s'.beingCancelled id = true) :
    (unmoved s r id && unmoved r s' id) = unmoved s s' id := by
  unfold unmoved
  cases hs : s.beingCancelled id <;> cases hr : r.beingCancelled id <;>
    cases hs' : s'.beingCancelled id <;> simp_all

theorem unmoved_of_eq (hs : s'.beingCancelled id = s.beingCancelled id) :
    unmoved s s' id = true := by
  simp [unmoved, hs]

theorem shifts_signal (s : Scheduler P R W) (id : TaskId) :
    Shifts (unmoved s (s.signal id)) s (s.signal id) := by
  rcases signal_cases s id with heq | ⟨t, wait, ht, hcalm, -, heq⟩
  · rw [heq]
    exact (Shifts.of_queue rfl).congr fun entry _ => (unmoved_of_eq rfl).symm
  · have hflag : (s.signal id).beingCancelled id = true := by
      rcases heq with heq | heq <;> rw [heq] <;> exact beingCancelled_mark ht wait
    have hkept : ∀ entry ∈ s.queue, (fun j => decide (j ≠ id)) entry.1 =
        unmoved s (s.signal id) entry.1 := by
      intro entry _
      by_cases hid : entry.1 = id
      · simp [unmoved, hid, hflag, beingCancelled_eq ht, hcalm]
      · simp [unmoved, hid, beingCancelled_signal_of_ne s hid]
    suffices hshifts : Shifts (fun j => decide (j ≠ id)) s (s.signal id) from hshifts.congr hkept
    have hmark := queue_mark s id t wait
    rcases heq with heq | heq <;> rw [heq]
    · exact ⟨[], [], by simpa using hmark⟩
    · exact ⟨[(id, .error (.cancelled id))], [], by simpa [enqueueFirst] using hmark⟩

theorem shifts_of_calm (hs : ∀ j, s'.beingCancelled j = s.beingCancelled j)
    (hshifts : Shifts (fun _ => true) s s') : Shifts (unmoved s s') s s' :=
  hshifts.congr fun entry _ => (unmoved_of_eq (hs entry.1)).symm

theorem Change.shifts (hs : Change A Q s s') : Shifts (unmoved s s') s s' := by
  cases hs with
  | frame htasks hqueue =>
    have hcalm : ∀ j, s'.beingCancelled j = s.beingCancelled j := fun j => by
      rw [beingCancelled, task?_of_tasks htasks, beingCancelled]
    exact shifts_of_calm hcalm (.of_queue hqueue)
  | turn id f hf =>
    refine shifts_of_calm (fun j => ?_) (.of_queue rfl)
    by_cases hj : j = id
    · simp only [beingCancelled, task?_updateTask, hj, if_true, Option.any_map]
      exact congrArg (Option.any · _) (funext fun t => (hf t).calm)
    · simp [beingCancelled, hj]
  | @first id input hinput =>
    exact shifts_of_calm (fun _ => rfl) ⟨[(id, input)], [], by simp [enqueueFirst]⟩
  | @last id input hinput =>
    exact shifts_of_calm (fun _ => rfl) ⟨[], [(id, input)], by simp [enqueueLast]⟩
  | signal id => exact shifts_signal s id
  | spawn name parent process hfresh hrole =>
    refine shifts_of_calm (fun j => ?_) (.of_queue (by cases parent <;> rfl))
    by_cases hj : j = ⟨s.nextTask⟩
    · rw [beingCancelled_eq ((task?_addTask ..).trans (if_pos hj)), hj, beingCancelled, hfresh]
      rfl
    · exact beingCancelled_of_stance (stance_addTask s name parent _ process hj)

theorem Changes.shifts (hs : Changes A Q s s') : Shifts (unmoved s s') s s' := by
  induction hs with
  | refl => exact shifts_of_calm (fun _ => rfl) (.of_queue rfl)
  | @tail r r' hfirst hlast ih =>
    have hchanged : Changed A s r := Changes.changed hfirst
    refine (ih.trans hlast.shifts).congr fun entry _ => ?_
    exact unmoved_eq_and (fun hc => hchanged.beingCancelled hc)
      fun hc => hlast.changed.beingCancelled hc

/-- A departure takes out of the queue what is queued for the tasks that it signals. -/
theorem shifts_after (d : Departure P R W) (h : Host P R W)
    (hqueue : ∀ entry ∈ d.before.queue, entry.1 ≠ d.id) :
    Shifts (unmoved d.before (d.after h)) d.before (d.after h) := by
  obtain ⟨r, hready, -, hchanges⟩ := after_stages d h ∅
  have hfiled : Shifts (unmoved (d.cleared h) (d.filed h)) (d.cleared h) (d.filed h) :=
    (changes_filed d h ∅).shifts
  have hstart : Shifts (fun _ => true) d.before (d.cleared h) := .of_queue (queue_cleared d h)
  refine (((hstart.trans hfiled).trans (.of_queue hready.queue)).trans hchanges.shifts).congr ?_
  intro entry he
  have hne := hqueue entry he
  have hcleared : (d.cleared h).beingCancelled entry.1 = d.before.beingCancelled entry.1 :=
    beingCancelled_of_verdict (verdict?_cleared d h hne)
  simp [unmoved, hcleared, hready.beingCancelled, beingCancelled_filed d h hne]

/-- What is queued is for tasks with a process whose turn it is not. -/
def InLine (A : Set TaskId) (s : Scheduler P R W) : Prop :=
  ∀ entry ∈ s.queue, entry.1 ∉ A ∧ entry.1.val < s.nextTask ∧
    ∃ t, s.task? entry.1 = some t ∧ t.process.isSome

/-- The flag of a task whose process goes on stays. -/
theorem Course.beingCancelled (hcourse : Course h A s D s') (hid : id ∉ A)
    (hfresh : id.val < s.nextTask) {t : Task P R W} (ht : s.task? id = some t)
    (hp : t.process.isSome) (hc : s.beingCancelled id = true) : s'.beingCancelled id = true := by
  obtain ⟨t', ht', -⟩ := hcourse.process hid ht hp
  exact hcourse.firm.beingCancelled (by simp [isLive_eq, ht']) hfresh hc

theorem Course.shifts_trans {D' : List (Departure P R W)} (hfirst : Course h A s D r)
    (hlast : Course h A r D' s') (hs : InLine A s) (hshifts : Shifts (unmoved s r) s r)
    (hshifts' : Shifts (unmoved r s') r s') : Shifts (unmoved s s') s s' := by
  refine (hshifts.trans hshifts').congr fun entry he => ?_
  obtain ⟨hid, hfresh, t, ht, hp⟩ := hs entry he
  obtain ⟨u, hu, hprocess, -⟩ := hfirst.process hid ht hp
  have hfresh' := Nat.lt_of_lt_of_le hfresh hfirst.firm.next
  exact unmoved_eq_and (hfirst.beingCancelled hid hfresh ht hp)
    (hlast.beingCancelled hid hfresh' hu (by rwa [hprocess]))

/-- A course takes out of the queue what is queued for the tasks that it signals, and adds entries
at the ends. -/
theorem Course.shifts (hcourse : Course h A s D s') (hs : InLine A s) :
    Shifts (unmoved s s') s s' := by
  induction hcourse with
  | refl => exact shifts_of_calm (fun _ => rfl) (.of_queue rfl)
  | @change r r' D hfirst hchange ih =>
    exact hfirst.shifts_trans ((Course.refl r).change hchange) hs ih hchange.shifts
  | @group r D owner mode effects hfirst ht hl hne ih =>
    obtain ⟨branches, hstarted⟩ := started_startGroup ht hl mode hne
    refine hfirst.shifts_trans ((Course.refl r).group owner mode ht hl hne) hs ih ?_
    exact shifts_of_calm hstarted.calm ⟨branches.map fun b => (b, .value .unit), [], by
      simp [hstarted.queue]⟩
  | @leave d D hfirst hleaving ih =>
    obtain ⟨L, hcoherent⟩ := hleaving.coherent
    refine hfirst.shifts_trans (.single hleaving) hs ih (shifts_after d h fun entry he => ?_)
    obtain ⟨t, process, ht, hp, -⟩ :=
      (hcoherent.registered entry.1).queued (List.mem_map_of_mem he)
    exact hleaving.ne_of_process ht (by simp [hp])

/-- A move is a course on which nothing is left in the queue for a task that goes on. -/
theorem Run.course_of_rest (run : Run h log s) (m : Move P) :
    ∃ A D, InLine A (s.popped m) ∧ Course h A (s.popped m) D (s.move h m) := by
  have hfound : ∀ entry ∈ s.queue, entry.1.val < s.nextTask ∧
      ∃ t, s.task? entry.1 = some t ∧ t.process.isSome := fun entry he =>
    ⟨run.tidy.forest.fresh _ (run.isLive_of_queued he), run.find_of_queued he⟩
  by_cases hm : m = .step
  · subst hm
    refine ⟨s.active, _, fun entry he => ⟨fun hactive => ?_, hfound entry (List.mem_of_mem_tail he)⟩,
      run.course .step⟩
    obtain ⟨input, hhead⟩ := mem_active.1 hactive
    obtain ⟨rest, hq⟩ := List.head?_eq_some_iff.1 hhead
    have hrest : (entry.1, entry.2) ∈ rest := by simpa [popped, hq] using he
    exact run.not_mem_rest hq hrest
  · have hchanges := changes_move (A := ∅) (Q := s.plain) (fun _ => Or.inl) s
      run.tidy.forest.fresh_task h hm
    have hsame : s.popped m = s := by
      cases m <;> first | rfl | exact absurd rfl hm
    rw [hsame]
    exact ⟨∅, [], fun entry he => ⟨Set.notMem_empty _, hfound entry he⟩, hchanges.course⟩

/-- A move takes out of the queue the task whose turn it is and what is queued for the tasks that it
signals. All else keeps its order, and what is new is at the ends. -/
theorem Run.shifts (run : Run h log s) (m : Move P) :
    Shifts (fun id => ¬Cancels h (s, m) id) (s.popped m) (s.move h m) := by
  obtain ⟨A, D, hline, hcourse⟩ := run.course_of_rest (h := h) m
  refine (hcourse.shifts hline).congr fun entry he => ?_
  obtain ⟨hid, hfresh, t, ht, hp⟩ := hline entry he
  have hstays := hcourse.beingCancelled hid hfresh ht hp
  rw [beingCancelled_popped] at hstays
  have hcalm : unmoved (s.popped m) (s.move h m) entry.1 = true ↔ ¬Cancels h (s, m) entry.1 := by
    simp only [unmoved, beingCancelled_popped, Cancels, beq_iff_eq]
    cases hc : s.beingCancelled entry.1 with
    | true => simp [hstays hc]
    | false => simp
  exact Bool.eq_iff_iff.2 (hcalm.trans decide_eq_true_iff.symm)

/-! ## Who stands before whom -/

/-- What stands in the queue before its first entry is taken off stays when another one is. -/
theorem sublist_popped (hqueue : entries.Sublist s.queue) (m : Move P)
    (hturn : m = .step → s.queue.head? ≠ entries.head?) : entries.Sublist (s.popped m).queue := by
  by_cases hm : m = .step
  · subst hm
    cases hq : s.queue with
    | nil => simpa [popped, hq] using hqueue
    | cons head rest =>
      rw [hq] at hqueue
      simp only [popped, hq, List.tail_cons]
      cases hqueue with
      | cons _ hrest => exact hrest
      | cons_cons _ hrest => exact absurd (by rw [hq]; rfl) (hturn rfl)
  · cases m <;> first | exact hqueue | exact absurd rfl hm

/-- It is not the turn of a task that another one stands before. -/
theorem Run.not_turn (run : Run h log s) (hqueue : (x :: entries ++ [y]).Sublist s.queue) :
    ¬Receives (s, m) y.1 input := by
  rintro ⟨-, hhead⟩
  obtain ⟨tail, hq⟩ := List.head?_eq_some_iff.1 hhead
  have hlast : (y.1, y.2) ∈ tail := by
    have hsub := hqueue.tail
    rw [show s.queue = (y.1, input) :: tail from hq] at hsub
    exact hsub.subset (by simp)
  exact run.not_mem_rest hq hlast

/-- Those before a task move up: the first of them is stepped, or nobody before the task is. -/
theorem Run.move_up (run : Run h log s) (hqueue : (x :: entries ++ [y]).Sublist s.queue)
    (m : Move P) (hcalm : ¬Cancels h (s, m) y.1) :
    ∃ rest, (served? (s, m) = some x ∧ rest = entries ∨ rest = x :: entries) ∧
      (rest.filter (fun entry => ¬Cancels h (s, m) entry.1) ++ [y]).Sublist (s.move h m).queue := by
  have hshifts : ∀ rest : List (TaskId × Input), (rest ++ [y]).Sublist (s.popped m).queue →
      (rest.filter (fun entry => ¬Cancels h (s, m) entry.1) ++ [y]).Sublist (s.move h m).queue := by
    intro rest hrest
    simpa [List.filter_append, hcalm] using (run.shifts m).sublist hrest
  by_cases hturn : m = .step ∧ s.queue.head? = some x
  · obtain ⟨rfl, hhead⟩ := hturn
    exact ⟨entries, Or.inl ⟨hhead, rfl⟩, hshifts _ hqueue.tail⟩
  · refine ⟨x :: entries, Or.inr rfl, hshifts _ (sublist_popped hqueue m fun hm hhead => ?_)⟩
    exact hturn ⟨hm, hhead⟩

/-- A task that is signalled neither before nor after its turn is not signalled on the way. -/
theorem Run.not_cancels_before (run : Run h log s) (hy : y ∈ s.queue) (m : Move P)
    {ms : List (Move P)} (he : e ∈ (s.move h m).history h ms) (hturn : Receives e y.1 input)
    (hsame : e.1.beingCancelled y.1 = s.beingCancelled y.1) :
    (s.move h m).beingCancelled y.1 = s.beingCancelled y.1 := by
  obtain ⟨before, after, -, hstate⟩ := mem_history he
  have hrun := (run.move m).moves before
  have hqueued : (y.1, input) ∈ ((s.move h m).moves h before).queue :=
    hstate ▸ List.mem_of_head? hturn.2
  have hfresh := run.tidy.forest.fresh y.1 (run.isLive_of_queued hy)
  rw [hstate] at hsame
  exact ((run.firm_move m).between ((run.move m).firm_moves before) hfresh
    (hrun.isLive_of_queued hqueued) hsame).2

/-- A task that is not being cancelled when it is stepped was not before either. -/
theorem Run.calm_before (run : Run h log s) (hy : y ∈ s.queue)
    {ms : List (Move P)} {before after : List (Scheduler P R W × Move P)}
    (hms : s.history h ms = before ++ e :: after) (hturn : Receives e y.1 input)
    (hcalm : e.1.beingCancelled y.1 = false) : s.beingCancelled y.1 = false := by
  obtain ⟨ms₁, ms₂, -, -, hstate, -⟩ := history_cut hms
  have hqueued : (y.1, input) ∈ (s.moves h ms₁).queue := hstate ▸ List.mem_of_head? hturn.2
  rw [hstate] at hcalm
  exact (run.firm_moves ms₁).calm (run.tidy.forest.fresh _ (run.isLive_of_queued hy))
    ((run.moves ms₁).isLive_of_queued hqueued) hcalm

/-- What is in order from the next state on is in order from this one: the first entry is stepped
with, and of the others those are lost whose tasks are signalled. -/
theorem InOrder.cons {rest : List (TaskId × Input)} {before : List (Scheduler P R W × Move P)}
    (hqueued : ∀ z ∈ x :: entries, z ∈ s.queue)
    (hcases : served? (s, m) = some x ∧ rest = entries ∨ rest = x :: entries)
    (hrest : InOrder h (rest.filter fun entry => ¬Cancels h (s, m) entry.1) before) :
    InOrder h (x :: entries) ((s, m) :: before) := by
  obtain ⟨kept, hkept, hturns, hlost⟩ := hrest
  have hkept' : kept.Sublist rest := hkept.trans List.filter_sublist
  -- who is not kept among the rest loses its entry in this move or later
  have hlost' : ∀ z ∈ rest, z ∈ s.queue → z ∈ kept ∨
      ∃ entry ∈ (s, m) :: before, Loses h entry z := by
    intro z hz hzq
    by_cases hc : Cancels h (s, m) z.1
    · exact Or.inr ⟨(s, m), List.mem_cons_self, hzq, hc⟩
    · refine (hlost z (List.mem_filter.2 ⟨hz, by simpa using hc⟩)).imp id ?_
      rintro ⟨entry, hin, hloses⟩
      exact ⟨entry, List.mem_cons_of_mem _ hin, hloses⟩
  rcases hcases with ⟨hserved, rfl⟩ | rfl
  · refine ⟨x :: kept, hkept'.cons_cons x, ?_, fun z hz => ?_⟩
    · rw [turns_cons, hserved]
      exact hturns.cons_cons x
    · rcases List.mem_cons.1 hz with rfl | hin
      · exact Or.inl List.mem_cons_self
      · exact (hlost' z hin (hqueued z hz)).imp (List.mem_cons_of_mem x) id
  · exact ⟨kept, hkept', hturns.trans (turns_sublist_cons _), fun z hz =>
      hlost' z hz (hqueued z hz)⟩

/-- Before the turn of a task all who stand before it are stepped, in their order, or lose their
entries. -/
theorem Run.served_in_order (run : Run h log s) (hqueue : (entries ++ [y]).Sublist s.queue)
    (ms : List (Move P)) {before after : List (Scheduler P R W × Move P)}
    (hms : s.history h ms = before ++ e :: after) (hturn : Receives e y.1 input)
    (hsame : e.1.beingCancelled y.1 = s.beingCancelled y.1) :
    InOrder h entries before := by
  induction ms generalizing log s entries before with
  | nil => simp [history] at hms
  | cons m ms ih =>
    cases entries with
    | nil => exact ⟨[], .slnil, List.nil_sublist _, by simp⟩
    | cons x entries =>
      cases before with
      | nil =>
        obtain ⟨rfl, -⟩ := List.cons.inj hms
        exact absurd hturn (run.not_turn hqueue)
      | cons first before =>
        obtain ⟨rfl, hrest⟩ := List.cons.inj hms
        have hy : y ∈ s.queue := hqueue.subset (by simp)
        have he : e ∈ (s.move h m).history h ms := by simp [hrest]
        have hmiddle := run.not_cancels_before hy m he hturn hsame
        have hcalm : ¬Cancels h (s, m) y.1 := fun hc => by
          have hflag := hc.1.symm.trans (hmiddle.symm.trans hc.2)
          cases hflag
        obtain ⟨rest, hcases, hqueue'⟩ := run.move_up hqueue m hcalm
        have hlater := ih (run.move m) hqueue' hrest (hsame.trans hmiddle.symm)
        exact hlater.cons (fun z hz => hqueue.subset (List.mem_append_left _ hz)) hcases

/-- An entry is stepped with or lost, or it stays. -/
theorem Run.stays_queued (run : Run h log s) (hx : x ∈ s.queue) (ms : List (Move P)) :
    x ∈ (s.moves h ms).queue ∨
      ∃ entry ∈ s.history h ms, Receives entry x.1 x.2 ∨ Loses h entry x := by
  induction ms generalizing log s with
  | nil => exact Or.inl hx
  | cons m ms ih =>
    rcases run.answerKept m hx with ⟨hm, hhead⟩ | hkept | ⟨-, hcalm, hcancel⟩
    · exact Or.inr ⟨(s, m), List.mem_cons_self, Or.inl ⟨hm, hhead⟩⟩
    · refine (ih (run.move m) hkept).imp id fun ⟨entry, he, hentry⟩ => ?_
      exact ⟨entry, List.mem_cons_of_mem _ he, hentry⟩
    · exact Or.inr ⟨(s, m), List.mem_cons_self, Or.inr ⟨hx, hcalm, hcancel⟩⟩

/-! ## Answers that are waited for -/

theorem Run.answered_move (run : Run h log s) (m : Move P) (hid : m = .step → id ∉ s.active)
    {c : Bool} (ha : s.Answered id input c) : (s.move h m).Answered id input c := by
  obtain ⟨A, D, hA, hcourse⟩ := run.course_of_others (h := h) m hid
  exact hcourse.answered hA (answered_popped m hid ha)

/-- A task that is not stepped keeps its answer, or has its signal instead. -/
theorem Run.answered_until (run : Run h log s) {c : Bool} (ha : s.Answered id input c)
    (ms : List (Move P)) {before after : List (Scheduler P R W × Move P)}
    (hms : s.history h ms = before ++ e :: after)
    (hfirst : ∀ entry ∈ before, ∀ input, ¬Receives entry id input) : e.1.Answered id input c := by
  induction ms generalizing log s before with
  | nil => simp [history] at hms
  | cons m ms ih =>
    cases before with
    | nil =>
      obtain ⟨rfl, -⟩ := List.cons.inj hms
      exact ha
    | cons first before =>
      obtain ⟨rfl, hrest⟩ := List.cons.inj hms
      have hid : m = .step → id ∉ s.active := by
        intro hm hactive
        obtain ⟨input', hhead⟩ := mem_active.1 hactive
        exact hfirst _ List.mem_cons_self input' ⟨hm, hhead⟩
      exact ih (run.move m) (run.answered_move m hid ha) hrest fun entry he =>
        hfirst entry (List.mem_cons_of_mem _ he)

/-- A task that is given its answer, and not its signal, was not signalled since it was queued. -/
theorem Run.unsignalled_of_answer (run : Run h log s) {v : Value} (hq : (id, .value v) ∈ s.queue)
    (ms : List (Move P)) {before after : List (Scheduler P R W × Move P)}
    (hms : s.history h ms = before ++ e :: after)
    (hfirst : ∀ entry ∈ before, ∀ input, ¬Receives entry id input)
    (hturn : Receives e id (.value v)) : e.1.beingCancelled id = s.beingCancelled id := by
  obtain ⟨t, ht, hp⟩ := run.find_of_queued hq
  have hfresh := run.tidy.forest.fresh id (run.isLive_of_queued hq)
  have ha : s.Answered id (.value v) t.cancelling := ⟨hfresh, t, ht, hp, Or.inl ⟨hq, rfl⟩⟩
  obtain ⟨-, u, hu, -, ⟨-, hsame⟩ | ⟨hsignal, -⟩⟩ := run.answered_until ha ms hms hfirst
  · rw [beingCancelled_eq hu, beingCancelled_eq ht, hsame]
  · -- one entry is queued for a task, so the signal is not queued beside the answer
    have he : e ∈ s.history h ms := by simp [hms]
    obtain ⟨prior, rest, -, hstate⟩ := mem_history he
    obtain ⟨tail, hhead⟩ := List.head?_eq_some_iff.1 hturn.2
    rw [hstate] at hhead hsignal
    cases (run.moves prior).input_of_head hhead hsignal

/-! ## Effects that are carried out -/

/-- The world after the process whose turn it is has been stepped. -/
def turnWorld (s : Scheduler P R W) (h : Host P R W) : W :=
  match s.queue with
  | [] => s.world
  | (id, input) :: _ =>
    ((s.task? id).bind Task.process).elim s.world fun process =>
      (process.step h.program.resume input s.world).2.2

/-- The state in which the effect that a task yields on its turn is carried out. -/
structure Yielded (h : Host P R W) (s : Scheduler P R W) (id : TaskId) (effect : Effect P W)
    (r : Scheduler P R W) : Prop where
  queue : r.queue = s.queue.tail
  world : r.world = s.turnWorld h
  takers : r.takers = s.takers
  settled : r.settled = s.settled
  unhandled : r.unhandled = s.unhandled
  next : r.nextTask = s.nextTask
  others : ∀ j, j ≠ id → r.task? j = s.task? j
  self : ∃ t process, s.task? id = some t ∧ t.process.isSome ∧
    r.task? id = some { t with process := some process, status := .running, wait := .nothing }
  move : ∀ r', r.carryOut h id effect = .ok r' → s.move h .step = r'.takeFault.2

theorem yielded_of_turn {effect : Effect P W} (hturn : s.turn? h = some (id, .yield effect))
    (hvalid : effect.violation? = none) : ∃ r, Yielded h s id effect r := by
  obtain ⟨t, process, input, rest, hq, ht, hp, -, hmove⟩ := turn_yield hturn
  obtain ⟨process', world, hworld, hmove⟩ : ∃ process' world, s.turnWorld h = world ∧
      s.move h .step = (({ s with queue := rest, world }.storeProcess id process').dispatch h id
        effect).takeFault.2 := ⟨_, _, by simp [turnWorld, hq, ht, hp], hmove⟩
  let q := { s with queue := rest, world }.storeProcess id process'
  have hnote : (q.note h id effect).tasks = q.tasks ∧ (q.note h id effect).queue = rest ∧
      (q.note h id effect).world = world ∧ (q.note h id effect).takers = s.takers ∧
      (q.note h id effect).settled = s.settled ∧ (q.note h id effect).unhandled = s.unhandled ∧
      (q.note h id effect).nextTask = s.nextTask := by
    unfold note
    split <;> exact ⟨rfl, rfl, rfl, rfl, rfl, rfl, rfl⟩
  obtain ⟨htasks, hqueue, hworld', htakers, hsettled, hunhandled, hnext⟩ := hnote
  refine ⟨q.note h id effect, by rw [hqueue, hq]; rfl, hworld'.trans hworld.symm, htakers, hsettled,
    hunhandled, hnext, fun j hj => ?_, ?_, fun r' hr' => ?_⟩
  · exact (task?_of_tasks htasks j).trans ((task?_updateTask _ id j _).trans (if_neg hj))
  · have hstored := task?_storeProcess (s := { s with queue := rest }) ht process' world
    exact ⟨t, process', ht, by simp [hp], (task?_of_tasks htasks id).trans hstored⟩
  · rw [hmove]
    simp only [dispatch, hvalid]
    rw [show (q.note h id effect).carryOut h id effect = .ok r' from hr']

end CoopTasks.Scheduler

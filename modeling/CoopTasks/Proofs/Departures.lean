import CoopTasks.Proofs.Changes
import CoopTasks.Proofs.Coherence.Moves

/-!
# Departures

A task leaves the tree when it settles. `departures` lists the tasks that leave in a move, each with
the state in which it does, and `settlements` all that left in a run, in their order. Between the
departures there are only single changes and starts of groups, which makes every move a `Course`,
and what a course preserves holds along every run and at every departure.
-/

namespace CoopTasks

/-- A task that leaves the tree, and the state in which it does. -/
structure Departure (P R W : Type) where
  before : Scheduler P R W
  id : TaskId
  task : Task P R W

namespace Departure

variable {P R W : Type}

/-- What the task settles with. -/
def record (d : Departure P R W) : Settlement := ⟨d.id, d.task.endStatus, d.task.endResult d.id⟩

/-- The state that the departure leaves. -/
def after (d : Departure P R W) (h : Host P R W) : Scheduler P R W :=
  d.before.retire h d.id d.task

end Departure

namespace Scheduler

variable {P R W : Type} {s s' r r' : Scheduler P R W} {h : Host P R W}
variable {A L : Set TaskId} {Q : Input → Prop} {D D' : List (Departure P R W)}
variable {log : List (Scheduler P R W × Move P)}

/-- The tasks that leave when a settlement climbs. -/
def climb (h : Host P R W) : Nat → TaskId → Scheduler P R W → List (Departure P R W)
  | 0, _, _ => []
  | fuel + 1, id, s =>
    match s.task? id with
    | none => []
    | some t =>
      if t.isDone then
        match t.parent with
        | some parent => ⟨s, id, t⟩ :: climb h fuel parent (s.retire h id t)
        | none => [⟨s, id, t⟩]
      else []

/-- The tasks that leave when a process ends. -/
def finishClimb (s : Scheduler P R W) (h : Host P R W) (id : TaskId) (outcome : Outcome) :
    List (Departure P R W) :=
  match s.task? id with
  | none => []
  | some t =>
    let s := ((s.raiseOf id outcome).endProcess id outcome).cancelSubtrees (t.takenDown outcome)
    climb h s.tasks.size id s

/-- The tasks that leave when an effect is dispatched: none, unless it breaks the contract. -/
def dispatchClimb (s : Scheduler P R W) (h : Host P R W) (id : TaskId) (effect : Effect P W) :
    List (Departure P R W) :=
  match effect.violation? with
  | some violation => s.finishClimb h id (.error (.protocol violation))
  | none =>
    match (s.note h id effect).carryOut h id effect with
    | .ok _ => []
    | .error violation => (s.note h id effect).finishClimb h id (.error (.protocol violation))

/-- The tasks that leave in a step. -/
def stepClimb (s : Scheduler P R W) (h : Host P R W) (id : TaskId) (input : Input) :
    List (Departure P R W) :=
  match s.task? id with
  | none => []
  | some t =>
    match t.process with
    | none => []
    | some process =>
      let (answer, process, world) := process.step h.program.resume input s.world
      let s := { s with world }.storeProcess id process
      match answer with
      | .yield effect => s.dispatchClimb h id effect
      | .done v => s.finishClimb h id (.ok v)
      | .failed e => s.finishClimb h id (.error e)

/-- The tasks that leave the tree in a move. -/
def departures (s : Scheduler P R W) (h : Host P R W) : Move P → List (Departure P R W)
  | .step =>
    match s.queue with
    | [] => []
    | (id, input) :: rest => { s with queue := rest }.stepClimb h id input
  | _ => []

/-- The tasks that left the tree in the moves of a log. -/
def settlements (h : Host P R W) (log : List (Scheduler P R W × Move P)) :
    List (Departure P R W) :=
  log.flatMap fun entry => entry.1.departures h entry.2

@[simp] theorem settlements_nil (h : Host P R W) : settlements (P := P) (R := R) (W := W) h [] = [] :=
  rfl

@[simp] theorem settlements_append (h : Host P R W) (log log' : List (Scheduler P R W × Move P)) :
    settlements h (log ++ log') = settlements h log ++ settlements h log' :=
  List.flatMap_append

@[simp] theorem settlements_cons (h : Host P R W) (entry : Scheduler P R W × Move P)
    (log : List (Scheduler P R W × Move P)) :
    settlements h (entry :: log) = entry.1.departures h entry.2 ++ settlements h log :=
  List.flatMap_cons

/-! ## Courses -/

/-- What is the case whenever a task leaves. -/
structure Leaving (d : Departure P R W) : Prop where
  found : d.before.task? d.id = some d.task
  done : d.task.isDone
  forest : Forest d.before
  coherent : ∃ L, Coherent d.before L ∅

/-- One state becomes another by changes, by the start of groups and by departures. -/
inductive Course (h : Host P R W) (A : Set TaskId) :
    Scheduler P R W → List (Departure P R W) → Scheduler P R W → Prop where
  | refl (s : Scheduler P R W) : Course h A s [] s
  | change {s r r' : Scheduler P R W} {D : List (Departure P R W)} :
      Course h A s D r → Change A r.plain r r' → Course h A s D r'
  | group {s r : Scheduler P R W} {D : List (Departure P R W)} (id : TaskId) (mode : GroupMode)
      {effects : List (Effect P W)} : Course h A s D r → Tidy r → r.isLive id → effects ≠ [] →
      Course h A s D (r.startGroup id mode effects)
  | leave {s : Scheduler P R W} {d : Departure P R W} {D : List (Departure P R W)} :
      Course h A s D d.before → Leaving d → Course h A s (D ++ [d]) (d.after h)

theorem Course.trans (hs : Course h A s D r) (hs' : Course h A r D' s') :
    Course h A s (D ++ D') s' := by
  induction hs' with
  | refl => simpa using hs
  | change _ hchange ih => exact ih.change hchange
  | group id mode _ ht hl hne ih => exact ih.group id mode ht hl hne
  | leave _ hleaving ih =>
    rw [← List.append_assoc]
    exact ih.leave hleaving

/-- What changes, starts of groups and departures preserve is preserved by a course. -/
theorem Course.preserves {K : List (Departure P R W) → Scheduler P R W → Prop}
    (hchange : ∀ {D r r'}, K D r → Change A r.plain r r' → K D r')
    (hgroup : ∀ {D r id mode effects}, K D r → Tidy r → r.isLive id → effects ≠ [] →
      K D (r.startGroup id mode effects))
    (hleave : ∀ {D d}, K D d.before → Leaving d → K (D ++ [d]) (d.after h))
    (hcourse : Course h A s D' s') (hs : K D s) : K (D ++ D') s' := by
  induction hcourse with
  | refl => simpa using hs
  | change _ hstep ih => exact hchange ih hstep
  | group id mode _ ht hl hne ih => exact hgroup ih ht hl hne
  | leave _ hleaving ih =>
    rw [← List.append_assoc]
    exact hleave ih hleaving

/-- A course is cut where a task leaves. -/
theorem Course.split {d : Departure P R W} {E : List (Departure P R W)}
    (hcourse : Course h A s E s') : ∀ D', E = D ++ d :: D' →
      Course h A s D d.before ∧ Leaving d ∧ Course h A (d.after h) D' s' := by
  induction hcourse with
  | refl => simp
  | change _ hstep ih =>
    intro D' hE
    obtain ⟨hbefore, hleaving, hafter⟩ := ih D' hE
    exact ⟨hbefore, hleaving, hafter.change hstep⟩
  | group id mode _ ht hl hne ih =>
    intro D' hE
    obtain ⟨hbefore, hleaving, hafter⟩ := ih D' hE
    exact ⟨hbefore, hleaving, hafter.group id mode ht hl hne⟩
  | @leave e E hfirst hleaving ih =>
    intro D' hE
    rcases List.eq_nil_or_concat D' with rfl | ⟨D'', e', rfl⟩
    · obtain ⟨rfl, he⟩ := List.append_inj' hE rfl
      cases he
      exact ⟨hfirst, hleaving, .refl _⟩
    · have hE' : E ++ [e] = (D ++ d :: D'') ++ [e'] := by simpa using hE
      obtain ⟨rfl, he⟩ := List.append_inj' hE' rfl
      cases he
      obtain ⟨hbefore, hleaving', hafter⟩ := ih D'' rfl
      rw [List.concat_eq_append]
      exact ⟨hbefore, hleaving', hafter.leave hleaving⟩

theorem Changes.course (hs : Changes A s.plain s s') : Course h A s [] s' := by
  induction hs with
  | refl => exact .refl s
  | @tail r r' hfirst hlast ih =>
    have hplain : r.plain = s.plain := by
      funext input
      rw [plain, plain, (Changes.changed hfirst).settled]
    exact ih.change (hplain ▸ hlast)

theorem Course.single {d : Departure P R W} (hleaving : Leaving d) :
    Course h A d.before [d] (d.after h) :=
  (Course.refl d.before).leave hleaving

/-- Where some tasks may go on, more tasks may. -/
theorem Change.mono {A' : Set TaskId} (hA : A ⊆ A') (hs : Change A Q s s') : Change A' Q s s' := by
  cases hs with
  | frame htasks hqueue hgroups hsettled hnext hnextGroup =>
    exact .frame htasks hqueue hgroups hsettled hnext hnextGroup
  | turn id f hf =>
    exact .turn s id f fun t => { hf t with
      process := (hf t).process.imp_left fun hid => hA hid
      outcome := (hf t).outcome.imp_left fun hid => hA hid }
  | first id hinput => exact .first s id hinput
  | last id hinput => exact .last s id hinput
  | signal id => exact .signal s id
  | spawn name parent process hfresh hrole => exact .spawn s name parent process hfresh hrole

theorem Course.mono {A' : Set TaskId} (hA : A ⊆ A') (hs : Course h A s D s') :
    Course h A' s D s' := by
  induction hs with
  | refl => exact .refl s
  | change _ hchange ih => exact ih.change (hchange.mono hA)
  | group id mode _ ht hl hne ih => exact ih.group id mode ht hl hne
  | leave _ hleaving ih => exact ih.leave hleaving

/-- First some tasks go on with their processes, and then tasks leave. -/
def Phases (h : Host P R W) (A : Set TaskId) (s : Scheduler P R W) (D : List (Departure P R W))
    (s' : Scheduler P R W) : Prop :=
  ∃ r, Course h A s [] r ∧ Course h ∅ r D s'

theorem Phases.course (hs : Phases h A s D s') : Course h A s D s' := by
  obtain ⟨r, hfirst, hrest⟩ := hs
  exact hfirst.trans (hrest.mono (Set.empty_subset A))

theorem Course.phases (hs : Course h A s [] s') : Phases h A s [] s' := ⟨s', hs, .refl s'⟩

theorem Phases.after (hs : Phases h A r D s') (hfirst : Course h A s [] r) : Phases h A s D s' := by
  obtain ⟨q, hs, hrest⟩ := hs
  exact ⟨q, hfirst.trans hs, hrest⟩

theorem Phases.changes (hs : Phases h A s D r) (hrest : Changes ∅ r.plain r s') :
    Phases h A s D s' := by
  obtain ⟨q, hs, hlast⟩ := hs
  exact ⟨q, hs, by simpa using hlast.trans hrest.course⟩

/-! ## Moves are courses -/

theorem course_climb (h : Host P R W) (fuel : Nat) (id : TaskId) (s : Scheduler P R W)
    (hf : Forest s) (hc : Coherent s L ∅) :
    Course h ∅ s (climb h fuel id s) (settleWithin h fuel id s) := by
  induction fuel generalizing id s with
  | zero => exact .refl s
  | succ fuel ih =>
    unfold settleWithin climb
    cases ht : s.task? id with
    | none => exact .refl s
    | some t =>
      by_cases hd : t.isDone
      · have hleaving : Leaving ⟨s, id, t⟩ := ⟨ht, hd, hf, L, hc⟩
        have hsingle : Course h ∅ s [⟨s, id, t⟩] (s.retire h id t) := .single hleaving
        cases hparent : t.parent with
        | none => simpa [hd, hparent] using hsingle
        | some parent =>
          have hrest := ih parent _ (hf.retire h ht hd) (hc.retire h ht (Task.isDone_iff.1 hd).1)
          simpa [hd, hparent] using hsingle.trans hrest
      · simpa [hd] using Course.refl s

theorem endProcess_storeProcess (s : Scheduler P R W) (id : TaskId) (process : Process P R W)
    (outcome : Outcome) :
    ((s.storeProcess id process).raiseOf id outcome).endProcess id outcome =
      (s.raiseOf id outcome).endProcess id outcome := by
  unfold raiseOf
  split <;> simp [storeProcess, endProcess, updateTask, raise, Table.modify_modify]

/-- The process of the task in hand ends, and then the settlement climbs. -/
theorem phases_finish (hf : Forest s) {id : TaskId} (hc : Coherent s L {id}) (hid : id ∈ A)
    (h : Host P R W) (outcome : Outcome) :
    Phases h A s (s.finishClimb h id outcome) (s.finish h id outcome) := by
  obtain ⟨t, ht, -⟩ := (hc.loose id rfl).live
  have hraise : Coherent (s.raiseOf id outcome) L {id} := by
    unfold raiseOf
    split
    · exact hc.of_tables rfl rfl rfl rfl rfl rfl rfl rfl
    · exact hc
  have hend : Coherent ((s.raiseOf id outcome).endProcess id outcome) L ∅ :=
    (hraise.endProcess rfl outcome).congr_hand (by simp)
  have hchanges : Changes A s.plain s
      (((s.raiseOf id outcome).endProcess id outcome).cancelSubtrees (t.takenDown outcome)) :=
    ((changes_raiseOf s id outcome).trans (changes_endProcess _ hid outcome)).trans
      (changes_cancelSubtrees _ _)
  have hclimb := course_climb h
    (((s.raiseOf id outcome).endProcess id outcome).cancelSubtrees (t.takenDown outcome)).tasks.size
    id _ (hf.congr (sameShape_endProcess s id outcome (t.takenDown outcome)))
    (hend.cancelSubtrees _)
  unfold finish finishClimb
  rw [ht]
  exact ⟨_, hchanges.course, hclimb⟩

/-- The state of a process does not matter to its end. -/
theorem finishClimb_storeProcess {id : TaskId} {t : Task P R W} (ht : s.task? id = some t)
    (h : Host P R W) (process : Process P R W) (outcome : Outcome) :
    (s.storeProcess id process).finishClimb h id outcome = s.finishClimb h id outcome := by
  have hstore := task?_storeProcess ht process s.world
  unfold finishClimb
  simp only [hstore, ht, endProcess_storeProcess]
  rfl

theorem phases_dispatch (htidy : Tidy s) {id : TaskId} (hc : Coherent s L {id}) (hid : id ∈ A)
    (h : Host P R W) (effect : Effect P W) :
    Phases h A s (s.dispatchClimb h id effect) (s.dispatch h id effect) := by
  obtain ⟨t, ht, -⟩ := (hc.loose id rfl).live
  have hlive : s.isLive id := by simp [isLive_eq, ht]
  have htree := (quiet_note s h id effect).tree
  have htidy' := htidy.congr htree
  have hnote : Course h A s [] (s.note h id effect) := Changes.course (changes_note s h id effect)
  have hc' : Coherent (s.note h id effect) L {id} := by
    unfold note
    split
    · exact hc.of_tables rfl rfl rfl rfl rfl rfl rfl rfl
    · exact hc
  unfold dispatch dispatchClimb violate
  cases effect.violation? with
  | some violation => exact phases_finish htidy.forest hc hid h _
  | none =>
    dsimp only
    cases hs : (s.note h id effect).carryOut h id effect with
    | error violation => exact (phases_finish htidy'.forest hc' hid h _).after hnote
    | ok s' =>
      have hcases := changes_carryOut (A := A) (Q := (s.note h id effect).plain)
        (fun _ => Or.inl) (fun record hr => Or.inr ⟨record, hr, rfl⟩) htidy'.forest.fresh_task hs
      rcases hcases with hchanges | ⟨mode, effects, -, hne, rfl⟩
      · exact hchanges.course.phases.after hnote
      · exact (hnote.group id mode htidy' (by rwa [htree.isLive]) hne).phases

theorem phases_step (htidy : Tidy s) {id : TaskId} (hc : Coherent s L {id}) (hid : id ∈ A)
    (h : Host P R W) (input : Input) :
    Phases h A s (s.stepClimb h id input) (s.step h id input) := by
  obtain ⟨t, ht, hp⟩ := (hc.loose id rfl).live
  obtain ⟨process, hp⟩ := Option.isSome_iff_exists.1 hp
  unfold step stepClimb
  simp only [ht, hp]
  cases hstep : process.step h.program.resume input s.world with
  | mk answer rest =>
    obtain ⟨process', world⟩ := rest
    have hworld : Coherent { s with world } L {id} := hc.frame
    have hframe : Change A s.plain s { s with world } := .frame rfl rfl rfl rfl rfl rfl
    have hstart : Course h A s [] { s with world } := (Course.refl s).change hframe
    have hf : Forest { s with world } :=
      htidy.forest.congr (SameTree.shape (.of_tasks rfl rfl))
    have hfinish : ∀ outcome, Phases h A s
        (({ s with world }.storeProcess id process').finishClimb h id outcome)
        (({ s with world }.storeProcess id process').finish h id outcome) := by
      intro outcome
      rw [finish_storeProcess (s := { s with world }) ht,
        finishClimb_storeProcess (s := { s with world }) ht]
      exact (phases_finish hf hworld hid h outcome).after hstart
    cases answer with
    | done v => exact hfinish _
    | failed e => exact hfinish _
    | yield effect =>
      have hnotEnded : process' ≠ .ended := by
        have hne := Process.step_yield_ne_ended (congrArg Prod.fst hstep)
        rwa [hstep] at hne
      have hstore : Course h A { s with world } [] ({ s with world }.storeProcess id process') :=
        Changes.course (changes_storeProcess _ hid process')
      exact (phases_dispatch (htidy.storeProcess id process' world)
        (hworld.storeProcess rfl hnotEnded) hid h effect).after (hstart.trans hstore)

/-- The task whose turn it is. -/
def active (s : Scheduler P R W) : Set TaskId := {id | s.queue.head?.map Prod.fst = some id}

theorem mem_active {id : TaskId} : id ∈ s.active ↔ ∃ input, s.queue.head? = some (id, input) := by
  show s.queue.head?.map Prod.fst = some id ↔ _
  rw [Option.map_eq_some_iff]
  constructor
  · rintro ⟨⟨j, input⟩, hhead, rfl⟩
    exact ⟨input, hhead⟩
  · rintro ⟨input, hhead⟩
    exact ⟨(id, input), hhead, rfl⟩

/-- The state after the task whose turn it is was taken off the queue. -/
def popped (s : Scheduler P R W) : Move P → Scheduler P R W
  | .step => { s with queue := s.queue.tail }
  | _ => s

theorem phases_move (htidy : Tidy s) (hc : Coherent s L ∅) (h : Host P R W) (m : Move P) :
    Phases h s.active (s.popped m) (s.departures h m) (s.move h m) := by
  by_cases hm : m = .step
  · subst hm
    cases hq : s.queue with
    | nil =>
      have hsame : s.popped .step = s := by
        simp only [popped, hq, List.tail_nil]
        rw [← hq]
      rw [move_step_nil h hq, hsame, departures, hq]
      exact (Course.refl s).phases
    | cons entry rest =>
      obtain ⟨id, input⟩ := entry
      have hpop : Coherent { s with queue := rest } L {id} := (hc.pop hq).congr_hand (by simp)
      have htidy' : Tidy { s with queue := rest } := htidy.congr (.of_tasks rfl rfl)
      have hid : id ∈ s.active := by simp [active, hq]
      have hstep := (phases_step htidy' hpop hid h input).changes (changes_takeFault _)
      rw [move_step_cons h hq]
      simpa [popped, departures, hq] using hstep
  · have hchanges := changes_move (A := s.active) (Q := s.plain) (fun _ => Or.inl) s
      htidy.forest.fresh_task h hm
    have hnone : s.departures h m = [] := by
      cases m <;> first | rfl | exact absurd rfl hm
    have hsame : s.popped m = s := by
      cases m <;> first | rfl | exact absurd rfl hm
    rw [hnone, hsame]
    exact hchanges.course.phases

theorem Run.phases (run : Run h log s) (m : Move P) :
    Phases h s.active (s.popped m) (s.departures h m) (s.move h m) :=
  phases_move run.tidy run.coherent h m

theorem Run.course (run : Run h log s) (m : Move P) :
    Course h s.active (s.popped m) (s.departures h m) (s.move h m) :=
  (run.phases m).course

/-- What holds at the beginning, and is preserved by taking a task off the queue, by changes, by
starts of groups and by departures, holds along every run and whenever a task leaves. -/
theorem Run.along {K : List (Departure P R W) → Scheduler P R W → Prop}
    (hnew : ∀ world : W, K [] { world })
    (hpop : ∀ {D s}, K D s → K D { s with queue := s.queue.tail })
    (hchange : ∀ {A D r r'}, K D r → Change A r.plain r r' → K D r')
    (hgroup : ∀ {D r id mode effects}, K D r → Tidy r → r.isLive id → effects ≠ [] →
      K D (r.startGroup id mode effects))
    (hleave : ∀ {D d}, K D d.before → Leaving d → K (D ++ [d]) (d.after h))
    (run : Run h log s) :
    K (settlements h log) s ∧
      ∀ D d D', settlements h log = D ++ d :: D' → K D d.before ∧ Leaving d := by
  induction run with
  | @new world s hs =>
    obtain rfl := eq_of_new hs
    exact ⟨hnew world, by simp⟩
  | @move log s run m ih =>
    obtain ⟨hs, hbefore⟩ := ih
    have hpopped : K (settlements h log) (s.popped m) := by
      cases m with
      | step => exact hpop hs
      | _ => exact hs
    have hpreserves : ∀ {D s'}, Course h s.active (s.popped m) D s' → K (settlements h log ++ D) s' :=
      fun hcourse => hcourse.preserves hchange hgroup hleave hpopped
    have hcourse := run.course m
    have hsplit : settlements h (log ++ [(s, m)]) = settlements h log ++ s.departures h m := by simp
    rw [hsplit]
    refine ⟨hpreserves hcourse, fun D d D' hD => ?_⟩
    rcases List.append_eq_append_iff.1 hD with ⟨E, rfl, hE⟩ | ⟨E, hlog, hE⟩
    · obtain ⟨hfirst, hleaving, -⟩ := hcourse.split D' hE
      exact ⟨hpreserves hfirst, hleaving⟩
    · cases E with
      | nil =>
        obtain ⟨hfirst, hleaving, -⟩ := hcourse.split (D := []) D' (by simpa using hE.symm)
        have hfirst' := hpreserves hfirst
        rw [hlog] at hfirst'
        exact ⟨by simpa using hfirst', hleaving⟩
      | cons e E =>
        obtain ⟨rfl, -⟩ := List.cons.inj hE
        exact hbefore D d E hlog

/-- What a course establishes between its ends holds between a state and all states that follow,
those in which a task leaves included. -/
theorem Run.relates {K : Scheduler P R W → Scheduler P R W → Prop} (hrefl : ∀ s, K s s)
    (htrans : ∀ {s s' s''}, K s s' → K s' s'' → K s s'') (hpop : ∀ s m, K s (s.popped m))
    (hcourse : ∀ {A s D s'}, Course h A s D s' → K s s') (run : Run h log s) (ms : List (Move P)) :
    K s (s.moves h ms) ∧ ∀ d ∈ settlements h (s.history h ms), K s d.before := by
  induction ms generalizing log s with
  | nil => exact ⟨hrefl s, by simp [history]⟩
  | cons m ms ih =>
    have hmove : K s (s.move h m) := htrans (hpop s m) (hcourse (run.course m))
    obtain ⟨hend, hbefore⟩ := ih (run.move m)
    refine ⟨htrans hmove hend, fun d hd => ?_⟩
    simp only [history, settlements_cons] at hd
    rcases List.mem_append.1 hd with hd | hd
    · obtain ⟨D, D', hD⟩ := List.append_of_mem hd
      exact htrans (hpop s m) (hcourse ((run.course m).split D' hD).1)
    · exact htrans hmove (hbefore d hd)

/-! ## Moves in which a task leaves -/

/-- What holds on when a task that is done settles holds of every state in which one does. -/
theorem climb_preserves {I : Scheduler P R W → Prop}
    (hretire : ∀ s id t, s.task? id = some t → t.isDone → I s → I (s.retire h id t)) (fuel : Nat)
    (id : TaskId) {s : Scheduler P R W} (hs : I s) :
    I (settleWithin h fuel id s) ∧ ∀ d ∈ climb h fuel id s, I d.before := by
  refine ⟨settleWithin_preserves hretire fuel id hs, ?_⟩
  induction fuel generalizing id s with
  | zero => simp [climb]
  | succ fuel ih =>
    unfold climb
    cases ht : s.task? id with
    | none => simp
    | some t =>
      by_cases hd : t.isDone
      · cases hparent : t.parent with
        | none => simpa [hd, hparent] using hs
        | some parent =>
          simpa [hd, hparent] using And.intro hs (ih parent (hretire s id t ht hd hs))
      · simp [hd]

theorem nextTask_climb (h : Host P R W) (fuel : Nat) (id : TaskId) (s : Scheduler P R W) :
    (settleWithin h fuel id s).nextTask = s.nextTask ∧
      ∀ d ∈ climb h fuel id s, d.before.nextTask = s.nextTask := by
  refine climb_preserves (I := fun r => r.nextTask = s.nextTask) (fun r id t _ _ hr => ?_) fuel id
    rfl
  rw [(sameTree_retire r h id t).next, ← hr]
  cases t.parent <;> rfl

theorem nextTask_finish (s : Scheduler P R W) (h : Host P R W) (id : TaskId) (outcome : Outcome) :
    (s.finish h id outcome).nextTask = s.nextTask := by
  unfold finish
  cases ht : s.task? id with
  | none => exact (quiet_raiseOf s id outcome).tree.next
  | some t => exact (nextTask_climb h _ id _).1.trans (sameShape_endProcess s id outcome _).next

theorem nextTask_finishClimb (s : Scheduler P R W) (h : Host P R W) (id : TaskId)
    (outcome : Outcome) : ∀ d ∈ s.finishClimb h id outcome,
      d.before.nextTask = s.nextTask ∧ (s.finish h id outcome).nextTask = s.nextTask := by
  refine fun d hd => ⟨?_, nextTask_finish s h id outcome⟩
  unfold finishClimb at hd
  cases ht : s.task? id with
  | none => simp [ht] at hd
  | some t =>
    simp only [ht] at hd
    exact ((nextTask_climb h _ id _).2 d hd).trans (sameShape_endProcess s id outcome _).next

theorem nextTask_dispatchClimb (s : Scheduler P R W) (h : Host P R W) (id : TaskId)
    (effect : Effect P W) : ∀ d ∈ s.dispatchClimb h id effect,
      d.before.nextTask = s.nextTask ∧ (s.dispatch h id effect).nextTask = s.nextTask := by
  have hnote := (quiet_note s h id effect).tree.next
  unfold dispatchClimb dispatch violate
  cases effect.violation? with
  | some violation => exact nextTask_finishClimb s h id _
  | none =>
    dsimp only
    cases (s.note h id effect).carryOut h id effect with
    | ok s' => simp
    | error violation =>
      intro d hd
      obtain ⟨hbefore, hafter⟩ := nextTask_finishClimb _ h id _ d hd
      exact ⟨hbefore.trans hnote, hafter.trans hnote⟩

theorem nextTask_stepClimb (s : Scheduler P R W) (h : Host P R W) (id : TaskId) (input : Input) :
    ∀ d ∈ s.stepClimb h id input,
      d.before.nextTask = s.nextTask ∧ (s.step h id input).nextTask = s.nextTask := by
  unfold stepClimb step
  cases s.task? id with
  | none => simp
  | some t =>
    cases hp : t.process with
    | none => simp [hp]
    | some process =>
      simp only [hp]
      obtain ⟨answer, process', world⟩ := process.step h.program.resume input s.world
      cases answer with
      | yield effect => exact nextTask_dispatchClimb _ h id effect
      | done v => exact nextTask_finishClimb _ h id _
      | failed e => exact nextTask_finishClimb _ h id _

/-- A move in which a task leaves spawns none. -/
theorem nextTask_same {m : Move P} {d : Departure P R W} (hd : d ∈ s.departures h m) :
    d.before.nextTask = s.nextTask ∧ (s.move h m).nextTask = s.nextTask := by
  cases m with
  | step =>
    cases hq : s.queue with
    | nil => simp [departures, hq] at hd
    | cons entry rest =>
      obtain ⟨id, input⟩ := entry
      simp only [departures, hq] at hd
      obtain ⟨hbefore, hafter⟩ := nextTask_stepClimb _ h id input d hd
      rw [move_step_cons h hq, (quiet_takeFault _).tree.next]
      exact ⟨hbefore, hafter⟩
  | _ => simp [departures] at hd

theorem nextTask_of_departure {m : Move P} {d : Departure P R W} (hd : d ∈ s.departures h m) :
    (s.move h m).nextTask = d.before.nextTask :=
  (nextTask_same hd).2.trans (nextTask_same hd).1.symm

/-! ## A program of scripts -/

/-- Scripts for small runs. -/
inductive Play where
  /-- Forks a breaker, and waits for a notification. -/
  | forker
  /-- Forks a breaker, and joins it. -/
  | joiner
  /-- Joins a task that never was, which is a breach of the contract. -/
  | breaker
  /-- Waits for a notification twice over, and for both answers. -/
  | gatherer
  /-- Waits for a notification twice over, and for the first answer. -/
  | racer

namespace Play

def effects : Play → List (Effect Play Unit)
  | .forker => [.fork .breaker [], .take .wildcard]
  | .joiner => [.fork .breaker [], .join ⟨2⟩]
  | .breaker => [.join ⟨0⟩]
  | .gatherer => [.all [.take .wildcard, .take .wildcard]]
  | .racer => [.race [("left", .take .wildcard), ("right", .take .wildcard)]]

end Play

def stage : Host Play Unit Unit where
  program := ⟨fun _ => "play", fun p => .script p.effects, fun state _ w => (.done .unit, state, w)⟩

/-- Where the scripts are after some moves. -/
def stageAfter (ms : List (Move Play)) : Scheduler Play Unit Unit :=
  moves { world := () } stage ms

theorem stageAfter_run (ms : List (Move Play)) :
    Run stage (history { world := () } stage ms) (stageAfter ms) := by
  have hnew : Run stage [] (({ world := () } : Scheduler Play Unit Unit)) := .new rfl
  exact hnew.moves ms

end Scheduler

end CoopTasks

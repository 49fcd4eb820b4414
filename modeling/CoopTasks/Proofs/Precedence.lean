import CoopTasks.Proofs.Groups

/-!
# What comes first in the queue

A signal is put before all that is queued, so it is ahead of every answer that was queued before it.
What is queued keeps its order until its tasks are stepped or signalled, hence the one whose entry
is ahead is stepped first. Nothing that others do takes the turn of a task or goes on with its
process; a branch of a group, in particular, runs a script of one effect, and its first turn is the
one that yields the effect.
-/

namespace CoopTasks.Scheduler

variable {P R W : Type} {s s' s'' r : Scheduler P R W} {h : Host P R W}
variable {A : Set TaskId} {Q : Input → Prop} {D : List (Departure P R W)} {d : Departure P R W}
variable {id b : TaskId} {x y : TaskId × Input} {entries : List (TaskId × Input)}
variable {log : List (Scheduler P R W × Move P)}

/-! ## Signals -/

theorem stance_mark_of_ne (s : Scheduler P R W) {j : TaskId} (hj : j ≠ id) (t : Task P R W)
    (wait : Wait) :
    ((s.mark id t wait).task? j).map Task.stance = (s.task? j).map Task.stance :=
  (stance_withdraw _ id j t.wait).trans (by simp [hj])

theorem beingCancelled_signal_of_ne (s : Scheduler P R W) {j : TaskId} (hj : j ≠ id) :
    (s.signal id).beingCancelled j = s.beingCancelled j := by
  rcases signal_cases s id with heq | ⟨t, wait, -, -, -, heq | heq⟩ <;> rw [heq]
  · exact beingCancelled_of_stance (stance_mark_of_ne s hj t wait)
  · exact beingCancelled_of_stance (stance_mark_of_ne s hj t wait)

/-- A change that signals a task is the signal to it. -/
theorem Change.eq_signal (hs : Change A Q s s') (hcalm : s.beingCancelled b = false)
    (hcancel : s'.beingCancelled b = true) : s' = s.signal b := by
  have hsame : s'.beingCancelled b = s.beingCancelled b → s' = s.signal b := by
    intro heq
    rw [heq, hcalm] at hcancel
    cases hcancel
  cases hs with
  | frame htasks => exact hsame (by rw [beingCancelled, task?_of_tasks htasks, beingCancelled])
  | turn id f hf =>
    refine hsame ?_
    by_cases hb : b = id
    · simp only [beingCancelled, task?_updateTask, hb, if_true, Option.any_map]
      exact congrArg (Option.any · _) (funext fun t => (hf t).calm)
    · simp [beingCancelled, hb]
  | first => exact hsame rfl
  | last => exact hsame rfl
  | signal id =>
    by_cases hb : b = id
    · rw [hb]
    · exact hsame (beingCancelled_signal_of_ne s hb)
  | spawn name parent process hfresh hrole =>
    by_cases hb : b = ⟨s.nextTask⟩
    · rw [beingCancelled_eq ((task?_addTask ..).trans (if_pos hb))] at hcancel
      cases hcancel
    · exact hsame (beingCancelled_of_stance (stance_addTask s name parent _ process hb))

/-- The signal to a task with a process goes before all that is queued for others. -/
theorem queue_signal {t : Task P R W} (ht : s.task? b = some t) (hp : t.process.isSome)
    (hcalm : s.beingCancelled b = false) :
    (s.signal b).queue = (b, .error (.cancelled b)) :: s.queue.filter (·.1 ≠ b) := by
  rw [beingCancelled_eq ht] at hcalm
  have hmark := queue_mark s b t .nothing
  unfold signal
  simp only [ht, hcalm, hp, Bool.false_eq_true, if_true, if_false]
  exact congrArg (List.cons _) hmark

/-- Filing a record signals nobody. -/
theorem beingCancelled_filed (d : Departure P R W) (h : Host P R W) {j : TaskId} (hj : j ≠ d.id) :
    (d.filed h).beingCancelled j = d.before.beingCancelled j :=
  beingCancelled_of_verdict (((woken_filed d h).verdict j).trans (verdict?_cleared d h hj))

/-! ## Order in the queue -/

/-- One entry of the queue stands before another. -/
def Ahead (s : Scheduler P R W) (x y : TaskId × Input) : Prop := [x, y].Sublist s.queue

/-- A signal goes ahead of what was queued before it. -/
theorem Changes.signal_ahead (hs : Changes A Q s s') (hb : b ∉ A) {t : Task P R W}
    (ht : s.task? b = some t) (hp : t.process.isSome) (hcalm : s.beingCancelled b = false)
    (hcancel : s'.beingCancelled b = true) (hy : y ∈ s.queue)
    (hsame : s'.beingCancelled y.1 = s.beingCancelled y.1) :
    Ahead s' (b, .error (.cancelled b)) y := by
  induction hs with
  | refl =>
    rw [hcalm] at hcancel
    cases hcancel
  | @tail r r' hfirst hlast ih =>
    have hsteady : Steady A s r := (Changes.changed hfirst).toSteady
    have hmiddle := hsteady.between hlast.changed.toSteady hsame
    have hlater := hsame.trans hmiddle.symm
    cases hr : r.beingCancelled b with
    | true =>
      refine hlast.sublist_queue (ih hr hmiddle) fun entry he => ?_
      rcases List.mem_cons.1 he with rfl | he
      · exact hcancel.trans hr.symm
      · rwa [List.mem_singleton.1 he]
    | false =>
      -- this is the change that signals the task
      obtain ⟨u, hu, hkept⟩ := hsteady.stays b t ht
      have hprocess : u.process.isSome := by rwa [hkept.process.resolve_left hb]
      have hqueue : y ∈ r.queue := List.singleton_sublist.1
        (Changes.sublist_queue hfirst (List.singleton_sublist.2 hy) (by simpa using hmiddle))
      have hne : y.1 ≠ b := by
        intro he
        rw [he, hcancel, hr] at hlater
        cases hlater
      rw [Ahead, hlast.eq_signal hr hcancel, queue_signal hu hprocess hr]
      refine List.Sublist.cons_cons _ (List.singleton_sublist.2 ?_)
      exact List.mem_filter.2 ⟨hqueue, by simpa using hne⟩

/-- Between two states a task is neither signalled nor leaves. -/
theorem Firm.between (hs : Firm s r) (hs' : Firm r s') (hid : id.val < s.nextTask)
    (hl : s'.isLive id) (hsame : s'.beingCancelled id = s.beingCancelled id) :
    r.isLive id ∧ r.beingCancelled id = s.beingCancelled id := by
  have hid' := Nat.lt_of_lt_of_le hid hs.next
  obtain ⟨t', ht'⟩ := Option.isSome_iff_exists.1 hl
  obtain ⟨t, ht, -⟩ := hs'.stands id t' ht' hid'
  have hl' : r.isLive id := by simp [isLive_eq, ht]
  refine ⟨hl', ?_⟩
  cases hc : s.beingCancelled id with
  | false => exact hs'.calm hid' hl (hsame.trans hc)
  | true =>
    cases hr : r.beingCancelled id with
    | true => rfl
    | false => rw [hs.calm hid hl' hr] at hc; cases hc

/-- Departures take nothing out of the queue but what is queued for the tasks that they signal. -/
theorem sublist_queue_after (d : Departure P R W) (h : Host P R W)
    (hqueue : entries.Sublist d.before.queue)
    (hlive : ∀ entry ∈ entries, (d.after h).isLive entry.1)
    (hsame : ∀ entry ∈ entries,
      (d.after h).beingCancelled entry.1 = d.before.beingCancelled entry.1) :
    entries.Sublist (d.after h).queue := by
  obtain ⟨r, hready, -, hchanges⟩ := after_stages d h ∅
  have hne : ∀ entry ∈ entries, entry.1 ≠ d.id := by
    intro entry he heq
    have hl := hlive entry he
    rw [isLive_after, heq] at hl
    simp at hl
  have hfiled : entries.Sublist (d.filed h).queue :=
    (changes_filed d h ∅).sublist_queue (by rwa [queue_cleared]) fun entry _ =>
      beingCancelled_of_verdict ((woken_filed d h).verdict entry.1)
  refine hchanges.sublist_queue (by rwa [hready.queue]) fun entry he => ?_
  rw [hsame entry he, hready.beingCancelled, beingCancelled_filed d h (hne entry he)]

theorem Course.sublist_queue (hcourse : Course h A s D s') (hqueue : entries.Sublist s.queue)
    (hlive : ∀ entry ∈ entries, entry.1.val < s.nextTask ∧ s'.isLive entry.1)
    (hsame : ∀ entry ∈ entries, s'.beingCancelled entry.1 = s.beingCancelled entry.1) :
    entries.Sublist s'.queue := by
  have hbetween : ∀ {D r}, Course h A s D r → ∀ {r'}, Firm r r' →
      (∀ entry ∈ entries, entry.1.val < s.nextTask ∧ r'.isLive entry.1) →
      (∀ entry ∈ entries, r'.beingCancelled entry.1 = s.beingCancelled entry.1) →
      (∀ entry ∈ entries, entry.1.val < s.nextTask ∧ r.isLive entry.1) ∧
        ∀ entry ∈ entries, r.beingCancelled entry.1 = s.beingCancelled entry.1 := by
    intro D r hfirst r' hfirm hlive hsame
    have hboth := fun entry he => hfirst.firm.between hfirm (hlive entry he).1 (hlive entry he).2
      (hsame entry he)
    exact ⟨fun entry he => ⟨(hlive entry he).1, (hboth entry he).1⟩,
      fun entry he => (hboth entry he).2⟩
  induction hcourse with
  | refl => exact hqueue
  | change hfirst hchange ih =>
    obtain ⟨hlive', hsame'⟩ := hbetween hfirst hchange.changed.firm hlive hsame
    exact hchange.sublist_queue (ih hlive' hsame') fun entry he =>
      (hsame entry he).trans (hsame' entry he).symm
  | group owner mode hfirst ht hl hne ih =>
    obtain ⟨branches, hstarted⟩ := started_startGroup ht hl mode hne
    obtain ⟨hlive', hsame'⟩ := hbetween hfirst
      (steady_startGroup (A := A) ht hl mode _).firm hlive hsame
    rw [hstarted.queue]
    exact (ih hlive' hsame').trans (List.sublist_append_right _ _)
  | leave hfirst hleaving ih =>
    obtain ⟨hlive', hsame'⟩ := hbetween hfirst (firm_after _ h) hlive hsame
    exact sublist_queue_after _ h (ih hlive' hsame') (fun entry he => (hlive entry he).2)
      fun entry he => (hsame entry he).trans (hsame' entry he).symm

/-! ## Processes of others -/

/-- A task with a process is not the one that leaves. -/
theorem Leaving.ne_of_process (hd : Leaving d) {t : Task P R W} (ht : d.before.task? b = some t)
    (hp : t.process.isSome) : b ≠ d.id := by
  rintro rfl
  obtain rfl := Option.some.inj (hd.found.symm.trans ht)
  rw [(Task.isDone_iff.1 hd.done).1] at hp
  cases hp

/-- A task whose process goes on only on its own turn stays until then. -/
theorem Course.process (hcourse : Course h A s D s') (hb : b ∉ A) {t : Task P R W}
    (ht : s.task? b = some t) (hp : t.process.isSome) :
    ∃ t', s'.task? b = some t' ∧ t'.process = t.process ∧ t'.role = t.role := by
  induction hcourse with
  | refl => exact ⟨t, ht, rfl, rfl⟩
  | change _ hchange ih =>
    obtain ⟨u, hu, hprocess, hrole⟩ := ih
    obtain ⟨t', ht', hsteady⟩ := hchange.changed.stays b u hu
    exact ⟨t', ht', (hsteady.process.resolve_left hb).trans hprocess, hsteady.role.trans hrole⟩
  | group id mode _ htidy hl _ ih =>
    obtain ⟨u, hu, hprocess, hrole⟩ := ih
    obtain ⟨t', ht', hsteady⟩ := (steady_startGroup (A := A) htidy hl mode _).stays b u hu
    exact ⟨t', ht', (hsteady.process.resolve_left hb).trans hprocess, hsteady.role.trans hrole⟩
  | @leave d D _ hleaving ih =>
    obtain ⟨u, hu, hprocess, hrole⟩ := ih
    have hne := hleaving.ne_of_process hu (by rwa [hprocess])
    obtain ⟨t', ht', hrole', -, hprocess'⟩ := find_after d h hne hu
    exact ⟨t', ht', hprocess'.trans hprocess, hrole'.trans hrole⟩

/-! ## Turns -/

/-- What is queued for a task finds it, with a process. -/
theorem Run.find_of_queued (run : Run h log s) {input : Input} (hm : (id, input) ∈ s.queue) :
    ∃ t, s.task? id = some t ∧ t.process.isSome := by
  obtain ⟨t, process, ht, hp, -⟩ :=
    (run.coherent.registered id).queued (List.mem_map.2 ⟨_, hm, rfl⟩)
  exact ⟨t, ht, by simp [hp]⟩

theorem Run.isLive_of_queued (run : Run h log s) {input : Input} (hm : (id, input) ∈ s.queue) :
    s.isLive id := by
  obtain ⟨t, ht, -⟩ := run.find_of_queued hm
  simp [isLive_eq, ht]

/-- A task that is queued waits for nothing. -/
theorem Run.wait_of_queued (run : Run h log s) (hm : id ∈ s.queue.map Prod.fst) :
    s.wait? id = some .nothing := by
  obtain ⟨t, -, ht, -, -, hw⟩ := (run.coherent.registered id).queued hm
  rw [wait?, ht, Option.map_some, hw]

/-- Nothing else is queued for the task whose turn it is. -/
theorem Run.not_mem_rest (run : Run h log s) {input input' : Input}
    {rest : List (TaskId × Input)} (hq : s.queue = (id, input) :: rest) : (id, input') ∉ rest := by
  intro hm
  have honce := (run.coherent.registered id).once
  rw [hq, List.map_cons, List.count_cons_self] at honce
  have hmem : id ∈ rest.map Prod.fst := List.mem_map_of_mem hm
  have hpos := List.count_pos_iff.2 hmem
  exact Nat.not_lt.2 (Nat.le_of_succ_le_succ honce) hpos

theorem Run.input_of_head (run : Run h log s) {input input' : Input}
    {rest : List (TaskId × Input)} (hq : s.queue = (id, input) :: rest)
    (hm : (id, input') ∈ s.queue) : input' = input := by
  rw [hq] at hm
  rcases List.mem_cons.1 hm with he | hm
  · exact (Prod.mk.inj he).2
  · exact absurd hm (run.not_mem_rest hq)

/-- A move that is not the turn of a task is a course on which others go on. -/
theorem Run.course_of_others (run : Run h log s) (m : Move P) (hb : m = .step → b ∉ s.active) :
    ∃ A D, b ∉ A ∧ Course h A (s.popped m) D (s.move h m) := by
  by_cases hm : m = .step
  · exact ⟨s.active, _, hb hm, run.course m⟩
  · have hchanges := changes_move (A := ∅) (Q := s.plain) (fun _ => Or.inl) s
      run.tidy.forest.fresh_task h hm
    have hsame : s.popped m = s := by
      cases m <;> first | rfl | exact absurd rfl hm
    rw [hsame]
    exact ⟨∅, [], Set.notMem_empty b, hchanges.course⟩

/-- A task with a process stays as it is in every move that is not its turn. -/
theorem Run.process_move (run : Run h log s) (m : Move P)
    (hb : m = .step → b ∉ s.active) {t : Task P R W} (ht : s.task? b = some t)
    (hp : t.process.isSome) :
    ∃ t', (s.move h m).task? b = some t' ∧ t'.process = t.process ∧ t'.role = t.role := by
  obtain ⟨A, D, hA, hcourse⟩ := run.course_of_others (h := h) m hb
  have hpopped : (s.popped m).task? b = some t := by cases m <;> exact ht
  exact hcourse.process hA hpopped hp

/-- Until its turn comes, what is ahead in the queue stays ahead when the next task is taken off, and
it is not the turn of the other either. -/
theorem Run.ahead_popped (run : Run h log s) (hahead : Ahead s x y) (m : Move P)
    (hturn : ¬(m = .step ∧ s.queue.head? = some x)) :
    Ahead (s.popped m) x y ∧ ∀ entry ∈ [x, y], m = .step → entry.1 ∉ s.active := by
  by_cases hm : m = .step
  · subst hm
    cases hq : s.queue with
    | nil =>
      rw [Ahead, hq] at hahead
      cases hahead
    | cons head rest =>
      rw [Ahead, hq] at hahead
      cases hahead with
      | cons _ hrest =>
        refine ⟨by simpa [Ahead, popped, hq] using hrest, fun entry he _ hactive => ?_⟩
        have hid : entry.1 = head.1 := by simpa [active, hq] using hactive
        have hin : (head.1, entry.2) ∈ rest := hid ▸ hrest.subset he
        exact run.not_mem_rest hq hin
      | cons_cons _ hrest => exact absurd ⟨rfl, by rw [hq]; rfl⟩ hturn
  · refine ⟨?_, fun _ _ hstep => absurd hstep hm⟩
    cases m <;> first | exact hahead | exact absurd rfl hm

/-- What is queued finds its task after a move that is not its turn. -/
theorem Run.isLive_move (run : Run h log s) (hx : x ∈ s.queue) (m : Move P)
    (hturn : m = .step → x.1 ∉ s.active) : (s.move h m).isLive x.1 := by
  obtain ⟨t, ht, hp⟩ := run.find_of_queued hx
  obtain ⟨t', ht', -⟩ := run.process_move m hturn ht hp
  simp [isLive_eq, ht']

/-- What is ahead in the queue stays ahead in a move, unless its turn has come or one of the two is
signalled. -/
theorem Run.ahead_kept (run : Run h log s) (hahead : Ahead s x y) (m : Move P)
    (hturn : ¬(m = .step ∧ s.queue.head? = some x))
    (hsame : ∀ entry ∈ [x, y],
      (s.move h m).beingCancelled entry.1 = s.beingCancelled entry.1) :
    Ahead (s.move h m) x y := by
  obtain ⟨hpopped, hidle⟩ := run.ahead_popped hahead m hturn
  have hnext : (s.popped m).nextTask = s.nextTask := by cases m <;> rfl
  refine (run.course m).sublist_queue hpopped (fun entry he => ⟨?_, ?_⟩) fun entry he => ?_
  · exact hnext ▸ run.tidy.forest.fresh _ (run.isLive_of_queued (hahead.subset he))
  · exact run.isLive_move (hahead.subset he) m (hidle entry he)
  · rw [beingCancelled_popped]
    exact hsame entry he

/-- A task that is being cancelled already is not signalled again. -/
theorem Run.ahead_move (run : Run h log s) (hahead : Ahead s x y)
    (hx : s.beingCancelled x.1 = true) (m : Move P)
    (hturn : ¬(m = .step ∧ s.queue.head? = some x))
    (hsame : (s.move h m).beingCancelled y.1 = s.beingCancelled y.1) :
    Ahead (s.move h m) x y ∧ (s.move h m).beingCancelled x.1 = true := by
  have hxq : x ∈ s.queue := hahead.subset (by simp)
  have hidle := (run.ahead_popped hahead m hturn).2 x (by simp)
  have hcx := (run.firm_move m).beingCancelled (run.isLive_move hxq m hidle)
    (run.tidy.forest.fresh _ (run.isLive_of_queued hxq)) hx
  refine ⟨run.ahead_kept hahead m hturn fun entry he => ?_, hcx⟩
  rcases List.mem_cons.1 he with rfl | he
  · exact hcx.trans hx.symm
  · rwa [List.mem_singleton.1 he]

/-- The task whose entry is ahead is stepped with it before the turn of the other comes, as long as
that other is not signalled. -/
theorem Run.first_served (run : Run h log s) (hahead : Ahead s x y) (hne : x.1 ≠ y.1)
    (hx : s.beingCancelled x.1 = true) (ms : List (Move P)) {input : Input}
    (hhead : (s.moves h ms).queue.head? = some (y.1, input))
    (hsame : (s.moves h ms).beingCancelled y.1 = s.beingCancelled y.1) :
    ∃ entry ∈ s.history h ms, Receives entry x.1 x.2 := by
  induction ms generalizing log s with
  | nil =>
    obtain ⟨rest, hq⟩ := List.head?_eq_some_iff.1 hhead
    rw [moves_nil] at hq
    rw [Ahead, hq] at hahead
    cases hahead with
    | cons _ hrest =>
      have hin : (y.1, y.2) ∈ rest := hrest.subset (by simp)
      exact absurd hin (run.not_mem_rest hq)
    | cons_cons _ hrest => exact absurd rfl hne
  | cons m ms ih =>
    by_cases hturn : m = .step ∧ s.queue.head? = some x
    · exact ⟨(s, m), by simp [history], hturn⟩
    · have hmem : y ∈ s.queue := hahead.subset (by simp)
      obtain ⟨t, -, ht, -⟩ := (run.coherent.registered y.1).queued (List.mem_map_of_mem hmem)
      have hfresh := run.tidy.forest.fresh y.1 (by simp [isLive_eq, ht])
      have hentry : (y.1, input) ∈ ((s.move h m).moves h ms).queue := List.mem_of_head? hhead
      obtain ⟨u, -, hu, -⟩ :=
        (((run.move m).moves ms).coherent.registered y.1).queued (List.mem_map.2 ⟨_, hentry, rfl⟩)
      obtain ⟨-, hmiddle⟩ := (run.firm_move m).between ((run.move m).firm_moves ms) hfresh
        (by rw [isLive_eq, hu]; rfl) hsame
      obtain ⟨hahead', hx'⟩ := run.ahead_move hahead hx m hturn hmiddle
      obtain ⟨entry, he, hreceives⟩ := ih (run.move m) hahead' hx' hhead (hsame.trans hmiddle.symm)
      exact ⟨entry, by simp [history, he], hreceives⟩

/-! ## Answers -/

/-- An answer that is queued stays, or gives way to the signal, as long as others go on. -/
theorem Change.answered (hs : Change A Q s s') (hb : b ∉ A) {input : Input} {c : Bool}
    (ha : s.Answered b input c) : s'.Answered b input c := by
  cases hs with
  | frame htasks hqueue hgroups hsettled hnext hnextGroup =>
    obtain ⟨hid, t, ht, hp, hq⟩ := ha
    refine ⟨by rwa [hnext], t, by rwa [task?_of_tasks htasks], hp, by rwa [hqueue]⟩
  | turn id f hf =>
    by_cases hid : b = id
    · subst hid
      obtain ⟨hlt, t, ht, hp, hq⟩ := ha
      refine ⟨hlt, f t, by simp [ht], ?_, ?_⟩
      · rwa [(hf t).process.resolve_left hb]
      · rwa [(hf t).calm]
    · exact ha.updateTask_of_ne f hid
  | first id hinput => exact (quiet_enqueueFirst s id _).kept _ _ _ ha
  | last id hinput => exact (quiet_enqueueLast s id _).kept _ _ _ ha
  | signal id => exact (quiet_signal s id).kept _ _ _ ha
  | spawn name parent process hfresh hrole =>
    exact (lasting_addTask s name parent _ process).kept _ _ _ ha

theorem Leaving.answered (hd : Leaving d) (h : Host P R W) {input : Input} {c : Bool}
    (ha : d.before.Answered b input c) : (d.after h).Answered b input c :=
  (lasting_retire h hd.found (Task.isDone_iff.1 hd.done).1).kept _ _ _ ha

theorem Course.answered (hcourse : Course h A s D s') (hb : b ∉ A) {input : Input} {c : Bool}
    (ha : s.Answered b input c) : s'.Answered b input c := by
  induction hcourse with
  | refl => exact ha
  | change _ hchange ih => exact hchange.answered hb ih
  | group id mode _ _ _ _ ih => exact (lasting_startGroup _ id mode _).kept _ _ _ ih
  | leave _ hleaving ih => exact hleaving.answered h ih

theorem answered_popped (m : Move P) (hb : m = .step → b ∉ s.active) {input : Input} {c : Bool}
    (ha : s.Answered b input c) : (s.popped m).Answered b input c := by
  obtain ⟨hid, t, ht, hp, hqueued⟩ := ha
  have hkept : ∀ input, (b, input) ∈ s.queue → (b, input) ∈ (s.popped m).queue := by
    intro input hin
    cases m with
    | step =>
      cases hq : s.queue with
      | nil => simp [hq] at hin
      | cons entry rest =>
        rw [hq] at hin
        rcases List.mem_cons.1 hin with rfl | hin
        · exact absurd (by simp [active, hq]) (hb rfl)
        · simpa [popped, hq] using hin
    | _ => exact hin
  have ht' : (s.popped m).task? b = some t := by cases m <;> exact ht
  have hid' : b.val < (s.popped m).nextTask := by cases m <;> exact hid
  exact ⟨hid', t, ht', hp, hqueued.imp (fun hin => ⟨hkept _ hin.1, hin.2⟩)
    fun hin => ⟨hkept _ hin.1, hin.2⟩⟩

/-- A task that is signalled has its signal queued, and keeps it as long as others go on. -/
theorem Changes.signal_answered (hs : Changes A Q s s') (hb : b ∉ A) (hid : b.val < s.nextTask)
    {t : Task P R W} (ht : s.task? b = some t) (hp : t.process.isSome)
    (hcalm : s.beingCancelled b = false) (hcancel : s'.beingCancelled b = true) :
    s'.Answered b (.error (.cancelled b)) true := by
  induction hs with
  | refl =>
    rw [hcalm] at hcancel
    cases hcancel
  | @tail r r' hfirst hlast ih =>
    cases hr : r.beingCancelled b with
    | true => exact hlast.answered hb (ih hr)
    | false =>
      have hsteady : Steady A s r := (Changes.changed hfirst).toSteady
      obtain ⟨u, hu, hkept⟩ := hsteady.stays b t ht
      obtain ⟨u', hu', hkept'⟩ := hlast.changed.stays b u hu
      have hprocess : u.process.isSome := by rwa [hkept.process.resolve_left hb]
      have hid' := Nat.lt_of_lt_of_le hid (hsteady.next.trans hlast.changed.next)
      refine ⟨hid', u', hu', ?_, Or.inl ⟨?_, ?_⟩⟩
      · rwa [hkept'.process.resolve_left hb]
      · rw [hlast.eq_signal hr hcancel, queue_signal hu hprocess hr]
        exact List.mem_cons_self
      · rwa [beingCancelled_eq hu'] at hcancel

theorem signal_answered_after (hd : Leaving d) (h : Host P R W) {t : Task P R W}
    (ht : d.before.task? b = some t) (hp : t.process.isSome)
    (hcalm : d.before.beingCancelled b = false) (hcancel : (d.after h).beingCancelled b = true) :
    (d.after h).Answered b (.error (.cancelled b)) true := by
  obtain ⟨r, hready, -, hchanges⟩ := after_stages d h ∅
  have hne := hd.ne_of_process ht hp
  have hid := hd.forest.fresh b (by simp [isLive_eq, ht])
  obtain ⟨children, hu⟩ := find_cleared d h hne ht
  obtain ⟨v, hv, hkept⟩ := (changes_filed d h ∅).changed.stays b _ hu
  have hprocess : v.process.isSome := by rwa [hkept.process.resolve_left (Set.notMem_empty b)]
  have hfirm : Firm d.before r := (firm_filed d h).trans hready.firm
  obtain ⟨w, hw, hwp⟩ : ∃ w, r.task? b = some w ∧ w.process.isSome := by
    rcases hready.tasks b with heq | ⟨w, e, hw, -, heq⟩
    · exact ⟨v, heq.trans hv, hprocess⟩
    · obtain rfl := Option.some.inj (hv.symm.trans hw)
      exact ⟨_, heq, hprocess⟩
  have hcalm' : r.beingCancelled b = false := by
    rw [hready.beingCancelled, beingCancelled_filed d h hne, hcalm]
  exact hchanges.signal_answered (Set.notMem_empty b) (Nat.lt_of_lt_of_le hid hfirm.next) hw hwp
    hcalm' hcancel

/-- A task that is signalled while others go on has its signal queued. -/
theorem Course.signal_answered (hcourse : Course h A s D s') (hb : b ∉ A)
    (hid : b.val < s.nextTask) {t : Task P R W} (ht : s.task? b = some t) (hp : t.process.isSome)
    (hcalm : s.beingCancelled b = false) (hcancel : s'.beingCancelled b = true) :
    s'.Answered b (.error (.cancelled b)) true := by
  induction hcourse with
  | refl =>
    rw [hcalm] at hcancel
    cases hcancel
  | @change r r' D hfirst hchange ih =>
    cases hr : r.beingCancelled b with
    | true => exact hchange.answered hb (ih hr)
    | false =>
      obtain ⟨u, hu, hprocess, -⟩ := hfirst.process hb ht hp
      have hid' := Nat.lt_of_lt_of_le hid hfirst.firm.next
      exact Changes.signal_answered (.single hchange) hb hid' hu (by rwa [hprocess]) hr hcancel
  | group id mode _ htidy hl hne ih =>
    obtain ⟨branches, hstarted⟩ := started_startGroup htidy hl mode hne
    rw [hstarted.calm] at hcancel
    exact (lasting_startGroup _ id mode _).kept _ _ _ (ih hcancel)
  | @leave d D hfirst hleaving ih =>
    cases hr : d.before.beingCancelled b with
    | true => exact hleaving.answered h (ih hr)
    | false =>
      obtain ⟨u, hu, hprocess, -⟩ := hfirst.process hb ht hp
      exact signal_answered_after hleaving h hu (by rwa [hprocess]) hr hcancel

/-! ## Turns that yield -/

theorem mem_active_of_turn {answer : Step P W} (hturn : s.turn? h = some (id, answer)) :
    id ∈ s.active := by
  obtain ⟨-, -, input, rest, hq, -⟩ := process_of_turn hturn
  simp [active, hq]

/-- A task that yields goes on with what its turn made of its process, and the effect is dispatched.
-/
theorem turn_yield {effect : Effect P W} (hturn : s.turn? h = some (id, .yield effect)) :
    ∃ t process input rest, s.queue = (id, input) :: rest ∧ s.task? id = some t ∧
      t.process = some process ∧
      (process.step h.program.resume input s.world).1 = .yield effect ∧
      s.move h .step = (({ s with
          queue := rest, world := (process.step h.program.resume input s.world).2.2 }.storeProcess id
          (process.step h.program.resume input s.world).2.1).dispatch h id effect).takeFault.2 := by
  obtain ⟨t, process, input, rest, hq, ht, hp, hyield⟩ := process_of_turn hturn
  refine ⟨t, process, input, rest, hq, ht, hp, hyield, ?_⟩
  have ht' : ({ s with queue := rest } : Scheduler P R W).task? id = some t := ht
  rw [move_step_cons h hq]
  simp only [step, ht', hp, hyield]

/-- An effect leaves its task with its process, or the task is finished. -/
theorem process_dispatch (htidy : Tidy s) {t t' : Task P R W} (ht : s.task? id = some t)
    (effect : Effect P W) (ht' : (s.dispatch h id effect).task? id = some t') :
    t'.process = none ∨ t'.process = t.process := by
  have hl : s.isLive id := by simp [isLive_eq, ht]
  have hnote := (quiet_note s h id effect).tree
  have hfinish : ∀ {r}, SameTree s r → ∀ violation,
      (r.violate h id violation).task? id = some t' → t'.process = none :=
    fun hr violation hfound =>
      ended_of_finish (hr.next ▸ htidy.forest.fresh id hl) (by rwa [hr.isLive]) h _ hfound
  rcases dispatch_cases s h id effect with
    ⟨s', -, hs, heq⟩ | ⟨violation, ⟨-, heq⟩ | ⟨-, heq⟩⟩ <;> rw [heq] at ht'
  · have htidy' := htidy.congr hnote
    have hstart : Steady ∅ s (s.note h id effect) :=
      (Changes.changed (Q := s.plain) (changes_note s h id effect)).toSteady
    have hsteady : Steady ∅ (s.note h id effect) s' := by
      rcases changes_carryOut (A := ∅) (Q := (s.note h id effect).plain) (fun _ => Or.inl)
        (fun record hr => Or.inr ⟨record, hr, rfl⟩) htidy'.forest.fresh_task hs with
        hchanges | ⟨mode, effects, -, -, rfl⟩
      · exact hchanges.changed.toSteady
      · exact steady_startGroup htidy' (by rwa [hnote.isLive]) mode effects
    obtain ⟨u, hu, hkept⟩ := (hstart.trans hsteady).stays id t ht
    obtain rfl := Option.some.inj (ht'.symm.trans hu)
    exact Or.inr (hkept.process.resolve_left (Set.notMem_empty id))
  · exact Or.inl (hfinish (.refl s) violation ht')
  · exact Or.inl (hfinish hnote violation ht')

/-! ## Scripts of branches -/

/-- A branch that is live runs a script of one effect. Until it yields the effect, the value that
starts it is queued, or the signal that takes its place. -/
def Scripted (s : Scheduler P R W) (b : TaskId) : Prop :=
  ∀ t process, s.task? b = some t → t.role.isBranch → t.process = some process →
    process = .script [] ∨
      ∃ effect, process = .script [effect] ∧ s.Answered b (.value .unit) false

theorem Scripted.change (hs : Scripted s b) (hchange : Change A Q s s') (hb : b ∉ A) :
    Scripted s' b := by
  intro t' process ht' hrole hp
  cases ht : s.task? b with
  | none =>
    rw [hchange.changed.newcomers b t' ht' ht] at hrole
    cases hrole
  | some t =>
    obtain ⟨u, hu, hsteady⟩ := hchange.changed.stays b t ht
    obtain rfl := Option.some.inj (ht'.symm.trans hu)
    rw [hsteady.role] at hrole
    rw [hsteady.process.resolve_left hb] at hp
    rcases hs t process ht hrole hp with heq | ⟨effect, heq, ha⟩
    · exact Or.inl heq
    · exact Or.inr ⟨effect, heq, hchange.answered hb ha⟩

theorem Scripted.startGroup (hs : Scripted s b) (ht : Tidy s) {owner : TaskId}
    (hl : s.isLive owner) (mode : GroupMode) {effects : List (Effect P W)} (hne : effects ≠ []) :
    Scripted (s.startGroup owner mode effects) b := by
  intro t' process ht' hrole hp
  have hsteady : Steady ∅ s (s.startGroup owner mode effects) :=
    steady_startGroup ht hl mode effects
  cases hb : s.task? b with
  | none =>
    obtain ⟨branches, hstarted⟩ := started_startGroup ht hl mode hne
    have hlive : (s.startGroup owner mode effects).isLive b := by simp [isLive_eq, ht']
    have hforest := (ht.startGroup hl mode effects).forest
    obtain ⟨slot, effect, heffect, rfl⟩ :=
      hstarted.newcomer hforest hlive (hsteady.came b t' ht' hb).1
    obtain ⟨hslot, u, hu, -, -, hprocess, hcalm⟩ := hstarted.poised slot effect heffect
    obtain rfl := Option.some.inj (ht'.symm.trans hu)
    obtain rfl := Option.some.inj (hp.symm.trans hprocess)
    refine Or.inr ⟨effect, rfl, hforest.fresh _ hlive, t', ht', by rw [hp]; rfl, Or.inl ⟨?_, hcalm⟩⟩
    rw [hstarted.queue]
    exact List.mem_append_left _ (List.mem_map_of_mem (List.mem_of_getElem? hslot))
  | some t =>
    obtain ⟨u, hu, hkept⟩ := hsteady.stays b t hb
    obtain rfl := Option.some.inj (ht'.symm.trans hu)
    rw [hkept.role] at hrole
    rw [hkept.process.resolve_left (Set.notMem_empty b)] at hp
    rcases hs t process hb hrole hp with heq | ⟨effect, heq, ha⟩
    · exact Or.inl heq
    · exact Or.inr ⟨effect, heq, (lasting_startGroup s owner mode effects).kept _ _ _ ha⟩

theorem Scripted.leave (hs : Scripted d.before b) (hd : Leaving d) (h : Host P R W) :
    Scripted (d.after h) b := by
  intro t' process ht' hrole hp
  obtain ⟨-, t, ht, hrole', -, hprocess⟩ := find_of_after d h ht'
  rw [hrole'] at hrole
  rw [hprocess] at hp
  rcases hs t process ht hrole hp with heq | ⟨effect, heq, ha⟩
  · exact Or.inl heq
  · exact Or.inr ⟨effect, heq, hd.answered h ha⟩

theorem Course.scripted (hcourse : Course h A s D s') (hb : b ∉ A) (hs : Scripted s b) :
    Scripted s' b := by
  induction hcourse with
  | refl => exact hs
  | change _ hchange ih => exact ih.change hchange hb
  | group id mode _ ht hl hne ih => exact ih.startGroup ht hl mode hne
  | leave _ hleaving ih => exact ih.leave hleaving h

theorem Scripted.pop (hs : Scripted s b) {m : Move P} (hb : m = .step → b ∉ s.active) :
    Scripted (s.popped m) b := by
  intro t process ht hrole hp
  have ht' : s.task? b = some t := by cases m <;> exact ht
  exact (hs t process ht' hrole hp).imp id fun ⟨effect, heq, ha⟩ =>
    ⟨effect, heq, answered_popped m hb ha⟩

/-- The turn in which a branch yields its effect uses up its script. -/
theorem Run.scripted_turn (run : Run h log s) (hs : Scripted s b) (hb : b ∈ s.active) :
    Scripted (s.move h .step) b := by
  intro t' process' ht' hrole hp'
  obtain ⟨input, hhead⟩ := mem_active.1 hb
  obtain ⟨rest, hq⟩ := List.head?_eq_some_iff.1 hhead
  obtain ⟨t, process, ht, hp, -⟩ := (run.coherent.registered b).queued (by simp [hq])
  have hfresh := run.tidy.forest.fresh b (by simp [isLive_eq, ht])
  have hturn : s.turn? h = some (b, (process.step h.program.resume input s.world).1) := by
    simp [turn?, hq, ht, hp]
  by_cases hanswer : (process.step h.program.resume input s.world).1.isTerminal
  · rw [(ended_of_turn run.tidy hturn hanswer).2 t' ht'] at hp'
    cases hp'
  · obtain ⟨effect, hyield⟩ : ∃ effect,
        (process.step h.program.resume input s.world).1 = .yield effect := by
      cases hstep : (process.step h.program.resume input s.world).1 <;> simp_all [Step.isTerminal]
    rw [hyield] at hturn
    obtain ⟨u, process, input', rest', hq', hu, hup, hyield, heq⟩ := turn_yield hturn
    obtain ⟨v, hv, honward⟩ := (later_move s h .step).onward b t' ht' hfresh
    obtain rfl := Option.some.inj (hu.symm.trans hv)
    rw [honward.role] at hrole
    rw [heq, task?_of_tasks (tasks_takeFault _)] at ht'
    have htidy : Tidy ({ s with queue := rest' } : Scheduler P R W) :=
      run.tidy.congr (.of_tasks rfl rfl)
    rcases process_dispatch (htidy.storeProcess b _ _)
      (task?_storeProcess (s := { s with queue := rest' }) hu _ _) effect ht' with hnone | hsame
    · rw [hnone] at hp'
      cases hp'
    · obtain rfl := Option.some.inj (hp'.symm.trans hsame)
      rcases hs u process hu hrole hup with rfl | ⟨own, rfl, -⟩
      · cases input' <;> simp [Process.step] at hyield
      · cases input' with
        | value v => exact Or.inl rfl
        | error e => simp [Process.step] at hyield

theorem Run.scripted (run : Run h log s) (b : TaskId) : Scripted s b := by
  induction run with
  | new hs =>
    obtain rfl := eq_of_new hs
    intro t process ht
    cases ht
  | @move log s run m ih =>
    by_cases hb : m = .step ∧ b ∈ s.active
    · obtain ⟨rfl, hb⟩ := hb
      exact run.scripted_turn ih hb
    · have hother : m = .step → b ∉ s.active := fun hm hin => hb ⟨hm, hin⟩
      obtain ⟨A, D, hA, hcourse⟩ := run.course_of_others (h := h) m hother
      exact hcourse.scripted hA (ih.pop hother)

/-- A branch that is being cancelled does not yield. -/
theorem Run.silent (run : Run h log s) {t : Task P R W} (ht : s.task? b = some t)
    (hrole : t.role.isBranch) (hc : t.cancelling = true) (effect : Effect P W) :
    s.turn? h ≠ some (b, .yield effect) := by
  intro hturn
  obtain ⟨u, process, input, rest, hq, hu, hp, hyield, -⟩ := turn_yield hturn
  obtain rfl := Option.some.inj (ht.symm.trans hu)
  rcases run.scripted b t process ht hrole hp with rfl | ⟨own, rfl, -, u, hu, -, hin⟩
  · cases input <;> simp [Process.step] at hyield
  · obtain rfl := Option.some.inj (ht.symm.trans hu)
    rcases hin with ⟨-, hcalm⟩ | ⟨hin, -⟩
    · rw [hc] at hcalm
      cases hcalm
    · rw [← run.input_of_head hq hin] at hyield
      simp [Process.step] at hyield

end CoopTasks.Scheduler

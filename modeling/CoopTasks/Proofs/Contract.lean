import CoopTasks.Proofs.Resolution

/-!
# The contract of a group

A task that yields an ALL or a RACE waits until a branch resolves the group or until it is
signalled. What it goes on with is its signal, or the answer that is due from the branches; the
group resolves at most once, and never after the task has gone on. Whoever has lost by then is
cancelled, gets its signal before the owner gets the answer, and yields nothing any more.
-/

namespace CoopTasks.Scheduler

variable {P R W : Type} {s s' r : Scheduler P R W} {h : Host P R W}
variable {A : Set TaskId} {D E E' : List (Departure P R W)} {d : Departure P R W}
variable {owner b : TaskId} {g : GroupId} {group : Group} {mode : GroupMode}
variable {effect : Effect P W} {effects : List (Effect P W)} {branches : List TaskId}
variable {input : Input} {log : List (Scheduler P R W × Move P)}

/-! ## How a group begins -/

/-- A group has just begun: its owner waits for it, and no branch has been stepped. -/
structure Opened (s : Scheduler P R W) (owner : TaskId) (g : GroupId) (mode : GroupMode)
    (branches : List TaskId) (effects : List (Effect P W)) : Prop where
  found : s.groups.find? g = some ⟨owner, mode, branches, effects.map fun _ => none⟩
  parked : s.wait? owner = some (.group g)
  length : branches.length = effects.length
  poised : ∀ (slot : Nat) effect, effects[slot]? = some effect →
    ∃ b, branches[slot]? = some b ∧ Poised s b owner g slot effect

theorem carryOut_group (hgroup : effect.group? = some (mode, effects)) (s : Scheduler P R W)
    (h : Host P R W) (id : TaskId) :
    s.carryOut h id effect = .ok (s.startGroup id mode effects) := by
  cases effect <;> cases hgroup <;> rfl

theorem Opened.of_tables (ho : Opened s owner g mode branches effects) (htasks : s'.tasks = s.tasks)
    (hgroups : s'.groups = s.groups) : Opened s' owner g mode branches effects := by
  refine ⟨hgroups ▸ ho.found, ?_, ho.length, fun slot effect he => ?_⟩
  · rw [wait?, task?_of_tasks htasks]
    exact ho.parked
  · obtain ⟨b, hb, t, ht, hrest⟩ := ho.poised slot effect he
    exact ⟨b, hb, t, (task?_of_tasks htasks b).trans ht, hrest⟩

theorem opened_dispatch (htidy : Tidy s) (hl : s.isLive owner) (hvalid : effect.violation? = none)
    (hgroup : effect.group? = some (mode, effects)) (hne : effects ≠ []) :
    ∃ branches, Opened (s.dispatch h owner effect) owner ⟨s.nextGroup⟩ mode branches effects := by
  have hnote := (quiet_note s h owner effect).tree
  have hnext : (s.note h owner effect).nextGroup = s.nextGroup := by
    unfold note
    split <;> rfl
  have heq : s.dispatch h owner effect = (s.note h owner effect).startGroup owner mode effects := by
    simp [dispatch, hvalid, carryOut_group hgroup]
  obtain ⟨branches, hs⟩ := started_startGroup (htidy.congr hnote)
    (show (s.note h owner effect).isLive owner by rwa [hnote.isLive]) mode hne
  rw [heq, ← hnext]
  refine ⟨branches, ?_, hs.parked, hs.length, fun slot effect he => ⟨_, hs.poised slot effect he⟩⟩
  rw [hs.groups, Table.find?_insert, if_pos rfl]

/-- The task that yields a group which does not breach the contract opens it. -/
theorem Run.opened (run : Run h log s) (hturn : s.turn? h = some (owner, .yield effect))
    (hvalid : effect.violation? = none) (hgroup : effect.group? = some (mode, effects))
    (hne : effects ≠ []) :
    ∃ branches, Opened (s.move h .step) owner ⟨s.nextGroup⟩ mode branches effects := by
  obtain ⟨t, process, input, rest, hq, ht, hp, hyield, heq⟩ := turn_yield hturn
  have htidy : Tidy ({ s with queue := rest } : Scheduler P R W) :=
    run.tidy.congr (.of_tasks rfl rfl)
  obtain ⟨branches, ho⟩ := opened_dispatch (h := h) (htidy.storeProcess owner _ _)
    (isLive_storeProcess (s := { s with queue := rest }) ht _ _) hvalid hgroup hne
  rw [heq]
  refine ⟨branches, Opened.of_tables ho (tasks_takeFault _) ?_⟩
  unfold takeFault
  split <;> rfl

/-- A task whose process has ended is not queued again. -/
theorem Run.not_queued (run : Run h log s) (hid : owner.val < s.nextTask)
    (hended : ∀ t, s.task? owner = some t → t.process = none) (ms : List (Move P)) :
    owner ∉ (s.moves h ms).queue.map Prod.fst := by
  intro hm
  obtain ⟨t', process, ht', hp, -⟩ := ((run.moves ms).coherent.registered owner).queued hm
  obtain ⟨t, ht, honward⟩ := (later_moves s h ms).onward owner t' ht' hid
  rw [honward.ended (hended t ht)] at hp
  cases hp

/-- The task that yields a malformed group ends. -/
theorem Run.breached (run : Run h log s) (hturn : s.turn? h = some (owner, .yield effect))
    (hviolation : effect.violation?.isSome) (ms : List (Move P)) :
    owner ∉ ((s.move h .step).moves h ms).queue.map Prod.fst := by
  obtain ⟨t, process, input, rest, hq, ht, hp, hyield, heq⟩ := turn_yield hturn
  obtain ⟨violation, hviolation⟩ := Option.isSome_iff_exists.1 hviolation
  have hid := run.tidy.forest.fresh owner (by simp [isLive_eq, ht])
  refine (run.move .step).not_queued (Nat.lt_of_lt_of_le hid (later_move s h .step).next) ?_ ms
  intro u hu
  rw [heq, task?_of_tasks (tasks_takeFault _)] at hu
  simp only [dispatch, hviolation, violate] at hu
  refine ended_of_finish ?_ ?_ h _ hu
  · exact hid
  · exact isLive_storeProcess (s := { s with queue := rest }) ht _ _

/-! ## How the owner goes on -/

/-- The next turn of a task is with the answer that is queued for it, or with its signal. -/
theorem Run.answer_arrives (run : Run h log s) {input input' : Input}
    (hm : (owner, input) ∈ s.queue) (ms : List (Move P))
    (hidle : ∀ entry ∈ s.history h ms, ∀ i, ¬Receives entry owner i)
    (hhead : (s.moves h ms).queue.head? = some (owner, input')) :
    input' = input ∨ input' = .error (.cancelled owner) ∧ Signalled s (s.moves h ms) owner := by
  induction ms generalizing log s input with
  | nil =>
    obtain ⟨rest, hq⟩ := List.head?_eq_some_iff.1 hhead
    exact Or.inl (run.input_of_head hq hm).symm
  | cons m ms ih =>
    have hidle' : ∀ entry ∈ (s.move h m).history h ms, ∀ i, ¬Receives entry owner i :=
      fun entry he => hidle entry (by simp [history, he])
    have hfresh := run.tidy.forest.fresh owner (run.isLive_of_queued hm)
    rcases run.answerKept m hm with ⟨rfl, hturn⟩ | hqueued | ⟨hqueued, hcalm, hcancel⟩
    · exact absurd ⟨rfl, hturn⟩ (hidle (s, .step) (by simp [history]) input)
    · rcases ih (run.move m) hqueued hidle' hhead with heq | ⟨heq, hcalm, hcondemned⟩
      · exact Or.inl heq
      · have hl := (run.move m).isLive_of_queued hqueued
        exact Or.inr ⟨heq, (run.firm_move m).calm hfresh hl hcalm, hcondemned⟩
    · have hcondemned : Condemned (s.move h m) owner := condemned_of_beingCancelled
        (Nat.lt_of_lt_of_le hfresh (run.firm_move m).next) hcancel
      have hstays := ((run.move m).firm_moves ms).condemned hcondemned
      rcases ih (run.move m) hqueued hidle' hhead with heq | ⟨heq, -⟩
      · exact Or.inr ⟨heq, hcalm, hstays⟩
      · exact Or.inr ⟨heq, hcalm, hstays⟩

/-- Whatever resolves a group answers its owner and cancels its branches. -/
theorem Run.resolution (run : Run h log s) (hd : d ∈ settlements h log)
    (hresolved : d.resolution? g = some input) :
    ∃ group, d.before.groups.find? g = some group ∧
      Resolution d h group.owner group.branches input := by
  obtain ⟨slot, group, hrole, hstatus, hg, hsettle⟩ := Departure.resolution?_eq_some.1 hresolved
  obtain ⟨D, D', hD⟩ := List.append_of_mem hd
  obtain ⟨hroster, hleaving⟩ := run.roster_along.2 D d D' hD
  have hcounted := (run.tally_along.2 D d D' hD).counted g group hg
  refine ⟨group, hg, hleaving.resolution h hrole hstatus hg hsettle
    (hcounted.live d.id d.task slot hleaving.found hrole).2.2 fun b hb hl => ?_⟩
  obtain ⟨i, t, ht, -, hparent⟩ := hcounted.of_live hroster hb hl
  simp [parent?, ht, hparent]

/-- A task that waits for a group is not queued, and has a process to go on with. -/
theorem Run.owner_parked (run : Run h log s) (hw : s.wait? owner = some (.group g)) :
    owner ∉ s.queue.map Prod.fst ∧ owner ∉ s.active ∧
      ∃ t, s.task? owner = some t ∧ t.process.isSome := by
  have hnot : owner ∉ s.queue.map Prod.fst := by
    intro hm
    cases hw.symm.trans (run.wait_of_queued hm)
  refine ⟨hnot, fun hactive => hnot ?_, run.coherent.process_of_wait hw (by simp)⟩
  obtain ⟨input, hhead⟩ := mem_active.1 hactive
  exact List.mem_map_of_mem (List.mem_of_head? hhead)

/-- The signal to a task whose turn it is not is queued for it. -/
theorem Run.signal_of_cancelled (run : Run h log s) (m : Move P) {id : TaskId}
    (hidle : m = .step → id ∉ s.active) {t : Task P R W} (ht : s.task? id = some t)
    (hp : t.process.isSome) (hcalm : s.beingCancelled id = false)
    (hcancel : (s.move h m).beingCancelled id = true) :
    (id, .error (.cancelled id)) ∈ (s.move h m).queue := by
  obtain ⟨A, D, hA, hcourse⟩ := run.course_of_others m hidle
  have ht' : (s.popped m).task? id = some t := by cases m <;> exact ht
  have hfresh := (forest_popped run.tidy.forest m).fresh id (by simp [isLive_eq, ht'])
  have hcalm' : (s.popped m).beingCancelled id = false := by rwa [beingCancelled_popped]
  obtain ⟨-, -, -, -, ⟨hqueued, -⟩ | ⟨-, -, hcontra⟩⟩ :=
    hcourse.signal_answered hA hfresh ht' hp hcalm' hcancel
  · exact hqueued
  · cases hcontra

/-- The signal to an owner that waits is queued for it. -/
theorem Run.signal_queued (run : Run h log s) (hw : s.wait? owner = some (.group g)) (m : Move P)
    (hs : Signalled s (s.move h m) owner) :
    (owner, .error (.cancelled owner)) ∈ (s.move h m).queue := by
  obtain ⟨-, hidle, t, ht, hp⟩ := run.owner_parked hw
  obtain ⟨u, hu, -⟩ := run.process_move m (fun _ => hidle) ht hp
  have hcancel : (s.move h m).beingCancelled owner = true := by
    rw [beingCancelled_eq hu]
    exact hs.2.cancelled u hu
  exact run.signal_of_cancelled m (fun _ => hidle) ht hp hs.1 hcancel

/-- The answer of the group is queued for the owner, or the signal that has taken its place. -/
theorem Run.answer_queued (run : Run h log s) (hw : s.wait? owner = some (.group g)) (m : Move P)
    (hd : d ∈ s.departures h m) (hresolved : d.resolution? g = some input) :
    (owner, input) ∈ (s.move h m).queue ∨
      (owner, .error (.cancelled owner)) ∈ (s.move h m).queue ∧ Signalled s (s.move h m) owner := by
  obtain ⟨-, hactive, t, ht, hp⟩ := run.owner_parked hw
  have ht' : (s.popped m).task? owner = some t := by cases m <;> exact ht
  obtain ⟨group, hg, howner⟩ := ((run.coherent.registered owner).group g).1 hw
  obtain ⟨group', hg', hresolution⟩ := (run.move m).resolution (by simp [hd]) hresolved
  have hqueued := hresolution.answered
  rw [(run.group_before hg [m] (by simpa [history] using hd) hg').1, howner] at hqueued
  obtain ⟨D, D', hD⟩ := List.append_of_mem hd
  obtain ⟨hfirst, hleaving, hrest⟩ := (run.course m).split D' hD
  obtain ⟨u, hu, hprocess, -⟩ := hfirst.process hactive ht' hp
  have hne := hleaving.ne_of_process hu (by rwa [hprocess])
  obtain ⟨v, hv, -, -, hprocess'⟩ := find_after d h hne hu
  have hid := hleaving.forest.fresh owner (by simp [isLive_eq, hu])
  have hanswered : (d.after h).Answered owner input v.cancelling :=
    ⟨by rwa [nextTask_after], v, hv, by rwa [hprocess', hprocess], Or.inl ⟨hqueued, rfl⟩⟩
  obtain ⟨hid', w, hw', -, ⟨hin, -⟩ | ⟨hin, hcancel, hcalm⟩⟩ := hrest.answered hactive hanswered
  · exact Or.inl hin
  · refine Or.inr ⟨hin, ?_, condemned_of_beingCancelled hid' (by rwa [beingCancelled_eq hw'])⟩
    have hfirm : Firm s (d.after h) :=
      ((firm_popped s m).trans hfirst.firm).trans (firm_after d h)
    have hl : (d.after h).isLive owner := by simp [isLive_eq, hv]
    exact hfirm.calm (run.tidy.forest.fresh owner (isLive_of_wait? hw)) hl
      (by rwa [beingCancelled_eq hv])

/-- The first turn of an owner is with its signal, or with the answer of the group. -/
theorem Run.owner_turn (run : Run h log s) (hw : s.wait? owner = some (.group g))
    (ms : List (Move P)) {input : Input}
    (hidle : ∀ entry ∈ s.history h ms, ∀ i, ¬Receives entry owner i)
    (hhead : (s.moves h ms).queue.head? = some (owner, input)) :
    (∃ d ∈ settlements h (s.history h ms), d.resolution? g = some input) ∨
      input = .error (.cancelled owner) ∧ Signalled s (s.moves h ms) owner := by
  induction ms generalizing log s with
  | nil =>
    exact absurd (List.mem_map.2 ⟨_, List.mem_of_head? hhead, rfl⟩) (run.owner_parked hw).1
  | cons m ms ih =>
    have hidle' : ∀ entry ∈ (s.move h m).history h ms, ∀ i, ¬Receives entry owner i :=
      fun entry he => hidle entry (by simp [history, he])
    have hfresh := run.tidy.forest.fresh owner (isLive_of_wait? hw)
    -- what is queued for the owner after the move is what it goes on with
    have hsignal : (owner, .error (.cancelled owner)) ∈ (s.move h m).queue →
        Signalled s (s.move h m) owner →
        input = .error (.cancelled owner) ∧ Signalled s (s.moves h (m :: ms)) owner := by
      rintro hqueued ⟨hcalm, hcondemned⟩
      have hstays := ((run.move m).firm_moves ms).condemned hcondemned
      rcases (run.move m).answer_arrives hqueued ms hidle' hhead with heq | ⟨heq, -⟩
      · exact ⟨heq, hcalm, hstays⟩
      · exact ⟨heq, hcalm, hstays⟩
    rcases run.owner_waits_move hw m with hw' | ⟨d, hd, hresolved⟩ | hsignalled
    · rcases ih (run.move m) hw' hidle' hhead with ⟨d, hd, hresolved⟩ | ⟨heq, hcalm, hcondemned⟩
      · exact Or.inl ⟨d, by simp [history, hd], hresolved⟩
      · exact Or.inr ⟨heq, (run.firm_move m).calm hfresh (isLive_of_wait? hw') hcalm, hcondemned⟩
    · obtain ⟨answer, hanswer⟩ := Option.isSome_iff_exists.1 hresolved
      rcases run.answer_queued hw m hd hanswer with hqueued | ⟨hqueued, hsignalled⟩
      · rcases (run.move m).answer_arrives hqueued ms hidle' hhead with rfl | ⟨heq, hcalm, hc⟩
        · exact Or.inl ⟨d, by simp [history, hd], hanswer⟩
        · have hl := (run.move m).isLive_of_queued hqueued
          exact Or.inr ⟨heq, (run.firm_move m).calm hfresh hl hcalm, hc⟩
      · exact Or.inr (hsignal hqueued hsignalled)
    · exact Or.inr (hsignal (run.signal_queued hw m hsignalled) hsignalled)

/-- A group that is not in the table any more is not resolved again. -/
theorem Run.not_resolved_again (run : Run h log s) (hlt : g.val < s.nextGroup)
    (hgone : s.groups.find? g = none) (ms : List (Move P)) :
    ∀ d ∈ settlements h (s.history h ms), d.resolution? g = none := by
  intro d hd
  by_contra hresolved
  obtain ⟨input, hresolved⟩ := Option.ne_none_iff_exists'.1 hresolved
  obtain ⟨-, group, -, -, hg, -⟩ := Departure.resolution?_eq_some.1 hresolved
  obtain ⟨group₀, hg₀, -⟩ := (run.regular_before ms hd).groups g group hg hlt
  rw [hgone] at hg₀
  cases hg₀

/-- How the owner of a group goes on. -/
structure Attended (h : Host P R W) (s : Scheduler P R W) (owner : TaskId) (g : GroupId)
    (ms : List (Move P)) : Prop where
  /-- It waits until a branch resolves the group, or it is signalled. -/
  waits : (s.moves h ms).wait? owner = some (.group g) ∨
    (∃ d ∈ settlements h (s.history h ms), (d.resolution? g).isSome) ∨
    Signalled s (s.moves h ms) owner
  /-- Its first turn is with the answer of the group, or with its signal. -/
  turn : ∀ input, (∀ entry ∈ s.history h ms, ∀ i, ¬Receives entry owner i) →
    (s.moves h ms).queue.head? = some (owner, input) →
    (∃ d ∈ settlements h (s.history h ms), d.resolution? g = some input) ∨
      input = .error (.cancelled owner) ∧ Signalled s (s.moves h ms) owner
  /-- Once it has gone on, no branch resolves the group. -/
  spent : ∀ input, (s.moves h ms).queue.head? = some (owner, input) →
    ∀ ms', ∀ d ∈ settlements h ((s.moves h ms).history h ms'), d.resolution? g = none

theorem Run.attended (run : Run h log s) (hw : s.wait? owner = some (.group g))
    (ms : List (Move P)) : Attended h s owner g ms := by
  refine ⟨run.owner_waits hw ms, fun input hidle hhead => run.owner_turn hw ms hidle hhead,
    fun input hhead ms' => ?_⟩
  have hqueued : owner ∈ (s.moves h ms).queue.map Prod.fst :=
    List.mem_map.2 ⟨_, List.mem_of_head? hhead, rfl⟩
  obtain ⟨group, hg, howner⟩ := ((run.coherent.registered owner).group g).1 hw
  have hlt := run.coherent.sound.groups g group hg
  have hregular := run.regular_moves ms
  refine (run.moves ms).not_resolved_again (Nat.lt_of_lt_of_le hlt hregular.next) ?_ ms'
  by_contra hfound
  obtain ⟨group', hg'⟩ := Option.ne_none_iff_exists'.1 hfound
  obtain ⟨group₀, hg₀, howner', -⟩ := hregular.groups g group' hg' hlt
  obtain rfl := Option.some.inj (hg.symm.trans hg₀)
  have hparked := (((run.moves ms).coherent.registered owner).group g).2
    ⟨group', hg', howner'.trans howner⟩
  exact ((run.moves ms).owner_parked hparked).1 hqueued

/-! ## How the branches end -/

/-- The signals of a resolution are received before the answer, as long as the owner is not
signalled itself. -/
theorem Run.signal_received (run : Run h log s) (m : Move P)
    (hD : s.departures h m = E ++ d :: E') (hr : Resolution d h owner branches input)
    (hb : b ∈ branches) (hne : b ≠ owner) (hfresh : owner.val < d.before.nextTask)
    (hgone : b ≠ d.id) {t : Task P R W}
    (ht : d.before.task? b = some t) (hp : t.process.isSome) (hcalm : t.cancelling = false)
    (ms : List (Move P)) {input' : Input}
    (hhead : ((s.move h m).moves h ms).queue.head? = some (owner, input'))
    (hnot : ¬Signalled (d.after h) ((s.move h m).moves h ms) owner) :
    ∃ entry ∈ (s.move h m).history h ms, Receives entry b (.error (.cancelled b)) := by
  obtain ⟨q, -, hclimb⟩ := run.phases m
  obtain ⟨-, hleaving, hrest⟩ := hclimb.split E' hD
  have hlive := ((run.move m).moves ms).isLive_of_queued (List.mem_of_head? hhead)
  have hfresh' : owner.val < (d.after h).nextTask := by rwa [nextTask_after]
  have hfirm := (run.move m).firm_moves ms
  have hsame :
      ((s.move h m).moves h ms).beingCancelled owner = (d.after h).beingCancelled owner := by
    cases hc : (d.after h).beingCancelled owner with
    | true => exact (hrest.firm.trans hfirm).beingCancelled hlive hfresh' hc
    | false =>
      cases hc' : ((s.move h m).moves h ms).beingCancelled owner with
      | false => rfl
      | true =>
        have hissued := Nat.lt_of_lt_of_le hfresh' (hrest.firm.trans hfirm).next
        exact absurd ⟨hc, condemned_of_beingCancelled hissued hc'⟩ hnot
  obtain ⟨hlive', hmiddle⟩ := hrest.firm.between hfirm hfresh' hlive hsame
  -- the loser stays, with its signal ahead of the answer
  obtain ⟨u, hu, -, -, hprocess⟩ := find_after d h hgone ht
  have hlu : (d.after h).isLive b := by simp [isLive_eq, hu]
  have hidb : b.val < (d.after h).nextTask := by
    rw [nextTask_after]
    exact hleaving.forest.fresh b (by simp [isLive_eq, ht])
  obtain ⟨v, hv, -⟩ := hrest.process (Set.notMem_empty b) hu (by rwa [hprocess])
  have hlv : (s.move h m).isLive b := by simp [isLive_eq, hv]
  have hcancelled := hr.losers b hb hlu
  have hcancelled' := hrest.firm.beingCancelled hlv hidb hcancelled
  have hahead : Ahead (s.move h m) (b, .error (.cancelled b)) (owner, input) := by
    refine hrest.sublist_queue (hr.ahead b hb hgone t ht hp hcalm) (fun entry he => ?_)
      fun entry he => ?_
    · rcases List.mem_cons.1 he with rfl | he
      · exact ⟨hidb, hlv⟩
      · obtain rfl := List.mem_singleton.1 he
        exact ⟨hfresh', hlive'⟩
    · rcases List.mem_cons.1 he with rfl | he
      · exact hcancelled'.trans hcancelled.symm
      · obtain rfl := List.mem_singleton.1 he
        exact hmiddle
  exact (run.move m).first_served hahead hne hcancelled' ms hhead (hsame.trans hmiddle.symm)

/-- A branch that was cancelled in a resolution yields nothing from then on. -/
theorem Run.silent_after (run : Run h log s) (hb : s.isLive b) {t : Task P R W}
    (ht : s.task? b = some t) (hrole : t.role.isBranch) {ms : List (Move P)}
    (hfirm : Firm r (s.moves h ms)) (hid : b.val < r.nextTask)
    (hlost : r.isLive b → r.beingCancelled b) (effect : Effect P W) :
    (s.moves h ms).turn? h ≠ some (b, .yield effect) := by
  intro hturn
  obtain ⟨u, -, -, -, -, hu, -⟩ := turn_yield hturn
  obtain ⟨t', ht', honward⟩ := (later_moves s h ms).onward b u hu (run.tidy.forest.fresh b hb)
  obtain rfl := Option.some.inj (ht.symm.trans ht')
  obtain ⟨v, hv, -⟩ := hfirm.stands b u hu hid
  have hcancelled := hfirm.beingCancelled (by simp [isLive_eq, hu]) hid
    (hlost (by simp [isLive_eq, hv]))
  rw [beingCancelled_eq hu] at hcancelled
  exact (run.moves ms).silent hu (by rwa [honward.role]) hcancelled effect hturn

/-- A branch leaves and resolves its group, in the move that ends in the state `next`. -/
structure Resolved (h : Host P R W) (earlier : List (Departure P R W)) (d : Departure P R W)
    (next : Scheduler P R W) (owner : TaskId) (g : GroupId) (mode : GroupMode)
    (branches : List TaskId) (input : Input) : Prop where
  /-- The answer is the one that the branches call for. -/
  due : Due earlier d branches mode input
  /-- No branch resolved the group before. -/
  first : ∀ e ∈ earlier, e.resolution? g = none
  answered : (owner, input) ∈ (d.after h).queue
  losers : ∀ b ∈ branches, (d.after h).isLive b → (d.after h).beingCancelled b
  /-- A branch that was not being cancelled and has a process is stepped with its signal before the
  owner goes on, unless the owner is signalled itself. -/
  signalled : ∀ b ∈ branches, b ≠ d.id → ∀ t, d.before.task? b = some t → t.process.isSome →
    t.cancelling = false → ∀ ms answer, (next.moves h ms).queue.head? = some (owner, answer) →
      ¬Signalled (d.after h) (next.moves h ms) owner →
      ∃ entry ∈ next.history h ms, Receives entry b (.error (.cancelled b))
  /-- No branch yields its effect any more. -/
  silent : ∀ b ∈ branches, ∀ ms effect, (next.moves h ms).turn? h ≠ some (b, .yield effect)

/-- A task of the list of branches that is live is a branch, and not the owner. -/
theorem Run.branch_of_live (run : Run h log s) (hg : s.groups.find? g = some group)
    (hb : b ∈ group.branches) (hl : s.isLive b) :
    ∃ t, s.task? b = some t ∧ t.role.isBranch ∧ b ≠ group.owner := by
  obtain ⟨slot, t, ht, hrole, hparent⟩ :=
    (run.tally.counted g group hg).of_live run.roster hb hl
  refine ⟨t, ht, by rw [hrole]; rfl, fun heq => ?_⟩
  have holder := run.tidy.forest.older b group.owner (by simp [parent?, ht, hparent])
  rw [heq] at holder
  exact Nat.lt_irrefl _ holder

/-- A group all of whose branches are live is resolved as its contract says. -/
theorem Run.resolved (run : Run h log s) (hg : s.groups.find? g = some group)
    (hlive : ∀ b ∈ group.branches, s.isLive b)
    (hkeys : ∀ keys, group.mode = .race keys → keys.length = group.branches.length)
    (ms : List (Move P)) (m : Move P) (hD : (s.moves h ms).departures h m = E ++ d :: E')
    (hresolved : d.resolution? g = some input) :
    Resolved h (settlements h (s.history h ms) ++ E) d ((s.moves h ms).move h m) group.owner g
      group.mode group.branches input := by
  have run' := (run.moves ms).move m
  have hsplit : settlements h (log ++ s.history h ms ++ [(s.moves h ms, m)]) =
      settlements h log ++ (settlements h (s.history h ms) ++ E) ++ d :: E' := by
    simp [hD]
  have hd : d ∈ settlements h (s.history h (ms ++ [m])) := by simp [history_append, history, hD]
  obtain ⟨hroster, hleaving⟩ := run'.roster_along.2 _ d E' hsplit
  obtain ⟨slot, group', hrole, hstatus, hg', hsettle⟩ := Departure.resolution?_eq_some.1 hresolved
  have hcounted := (run'.tally_along.2 _ d E' hsplit).counted g group' hg'
  obtain ⟨group'', hg'', hresolution⟩ := run'.resolution (by simp [hD]) hresolved
  obtain rfl := Option.some.inj (hg'.symm.trans hg'')
  obtain ⟨howner, hmode, hbranches⟩ := run.group_before hg _ hd hg'
  have hbranch := fun b hb => run.branch_of_live hg hb (hlive b hb)
  have hfresh : ∀ {j}, s.isLive j → j.val < d.before.nextTask := fun hl =>
    Nat.lt_of_lt_of_le (run.tidy.forest.fresh _ hl) (run.firm_before _ hd).next
  have hparked := ((run.coherent.registered group.owner).group g).2 ⟨group, hg, rfl⟩
  rw [← hbranches] at hlive hbranch hkeys
  rw [← hmode] at hkeys
  rw [← howner] at hbranch hparked
  rw [← howner, ← hmode, ← hbranches]
  refine ⟨hcounted.due hroster hleaving (fun e he hb => ?_) (fun e he => List.mem_append_right _ he)
    hrole hstatus hkeys hsettle, fun e he => ?_, hresolution.answered, hresolution.losers,
    fun b hb hgone t ht hp hcalm ms' answer hhead hnot => ?_, fun b hb ms' effect => ?_⟩
  · -- what left before the group began is none of its branches
    rcases List.mem_append.1 he with he | he
    · have hl := hlive e.id hb
      rw [isLive_eq, (run.roster.gone e he).2] at hl
      cases hl
    · exact he
  · by_contra hearlier
    obtain ⟨input', hearlier⟩ := Option.ne_none_iff_exists'.1 hearlier
    obtain ⟨i, -, hrole', -⟩ := Departure.resolution?_eq_some.1 hearlier
    rw [(hcounted.left e (List.mem_append_right _ he) i hrole').2.2] at hearlier
    cases hearlier
  · obtain ⟨-, -, -, hne⟩ := hbranch b hb
    exact (run.moves ms).signal_received m hD hresolution hb hne (hfresh (isLive_of_wait? hparked))
      hgone ht hp hcalm ms' hhead hnot
  · obtain ⟨t, ht, hbranch, -⟩ := hbranch b hb
    have hfirm := (((run.moves ms).course m).split E' hD).2.2.firm.trans (run'.firm_moves ms')
    have hend : ((s.moves h ms).move h m).moves h ms' = s.moves h (ms ++ m :: ms') := by
      rw [moves_append, moves_cons]
    rw [hend] at hfirm ⊢
    exact run.silent_after (hlive b hb) ht hbranch hfirm
      (by rw [nextTask_after]; exact hfresh (hlive b hb)) (hresolution.losers b hb) effect

theorem Opened.keys (ho : Opened s owner g mode branches effects)
    (hgroup : effect.group? = some (mode, effects)) :
    ∀ keys, mode = .race keys → keys.length = branches.length := by
  rintro keys rfl
  rw [ho.length]
  cases effect <;> cases hgroup
  simp

/-- A task that yields an ALL or a RACE of one branch or more ends for a breach of the contract, or
it opens a group. It goes on with the answer that resolves the group, or with its signal, and the
group is resolved at most once, as the branches that left by then call for. -/
theorem Run.group_contract (run : Run h log s) (hturn : s.turn? h = some (owner, .yield effect))
    (hgroup : effect.group? = some (mode, effects)) (hne : effects ≠ []) :
    (effect.violation?.isSome ∧
      ∀ ms, owner ∉ ((s.move h .step).moves h ms).queue.map Prod.fst) ∨
    effect.violation? = none ∧ ∃ branches,
      Opened (s.move h .step) owner ⟨s.nextGroup⟩ mode branches effects ∧
      (∀ ms, Attended h (s.move h .step) owner ⟨s.nextGroup⟩ ms) ∧
      ∀ ms m earlier d later input,
        ((s.move h .step).moves h ms).departures h m = earlier ++ d :: later →
        d.resolution? ⟨s.nextGroup⟩ = some input →
        Resolved h (settlements h ((s.move h .step).history h ms) ++ earlier) d
          (((s.move h .step).moves h ms).move h m) owner ⟨s.nextGroup⟩ mode branches input := by
  cases hviolation : effect.violation? with
  | some violation =>
    exact Or.inl ⟨rfl, run.breached hturn (by rw [hviolation]; rfl)⟩
  | none =>
    obtain ⟨branches, ho⟩ := run.opened hturn hviolation hgroup hne
    have hlive : ∀ b ∈ branches, (s.move h .step).isLive b := by
      intro b hb
      obtain ⟨slot, hslot⟩ := List.mem_iff_getElem?.1 hb
      have hlt : slot < effects.length := by
        rw [← ho.length]
        exact (List.getElem?_eq_some_iff.1 hslot).1
      obtain ⟨b', hb', t, ht, -⟩ := ho.poised slot _ (List.getElem?_eq_getElem hlt)
      obtain rfl := Option.some.inj (hslot.symm.trans hb')
      simp [isLive_eq, ht]
    refine Or.inr ⟨rfl, branches, ho, fun ms => (run.move .step).attended ho.parked ms, ?_⟩
    intro ms m earlier d later input hD hresolved
    exact (run.move .step).resolved ho.found hlive (ho.keys hgroup) ms m hD hresolved

def ping : Notification := ⟨"ping", .null⟩

/-- Both branches of a racer have heard of a notification. -/
def raced : Scheduler Play Unit Unit :=
  stageAfter [.enroll .racer [], .step, .step, .step, .announce ping]

/-- The branch that is stepped first resolves the race, and the other one gets its signal before the
racer gets the answer. -/
theorem group_contract_racer :
    ∃ d, raced.departures stage .step = [d] ∧
      d.resolution? ⟨1⟩ = some (.value (.keyed "left" (.notification ping))) ∧
      Due [] d [⟨2⟩, ⟨3⟩] (.race ["left", "right"])
        (.value (.keyed "left" (.notification ping))) ∧
      ((raced.move stage .step).moves stage [.step]).queue.head? =
        some (⟨1⟩, .value (.keyed "left" (.notification ping))) ∧
      ∃ entry ∈ (raced.move stage .step).history stage [.step],
        Receives entry ⟨3⟩ (.error (.cancelled ⟨3⟩)) := by
  have run := stageAfter_run [.enroll .racer []]
  have hturn : (stageAfter [.enroll .racer []]).turn? stage = some (⟨1⟩, .yield
      (.race [("left", .take .wildcard), ("right", .take .wildcard)])) := rfl
  obtain ⟨hbreach, -⟩ | ⟨-, branches, ho, -, hresolved⟩ :=
    run.group_contract hturn rfl (by simp)
  · cases hbreach
  · have hbranches : branches = [⟨2⟩, ⟨3⟩] :=
      (congrArg Group.branches (Option.some.inj ho.found)).symm
    have hd : raced.departures stage .step = [] ++ _ :: [] := rfl
    have hrace := hresolved [.step, .step, .announce ping] .step [] _ [] _ hd rfl
    rw [hbranches] at hrace
    refine ⟨_, rfl, rfl, hrace.due, rfl, ?_⟩
    refine hrace.signalled ⟨3⟩ (by simp) (by decide) _ rfl rfl rfl [.step] _ rfl fun hs => ?_
    have hcancelled := hs.2.cancelled _ rfl
    cases hcancelled

end CoopTasks.Scheduler

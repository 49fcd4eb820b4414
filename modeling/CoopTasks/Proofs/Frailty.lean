import CoopTasks.Proofs.Contract
import CoopTasks.Proofs.Deeds
import CoopTasks.Proofs.Idempotence
import CoopTasks.Proofs.Newcomers
import CoopTasks.Proofs.Records
import CoopTasks.Proofs.Signals

/-!
# Frail tasks

Scripts and watchers do not handle errors: whatever is thrown into them ends them. A task with such
a process does nothing more once it has been cancelled. Its signal is queued for it until it is
stepped with it, and that is its end. It spawns nothing meanwhile, and the children that it has are
being cancelled as well.
-/

namespace CoopTasks

namespace Process

variable {P R W : Type} {resume : R → Input → W → Step P W × R × W}
variable {process : Process P R W} {input : Input} {world : W} {effect : Effect P W}

/-- Whether a process follows a fixed plan: a script, or a watcher. -/
def isFixed : Process P R W → Bool
  | .script _ | .watchEvery .. | .watchLatest .. => true
  | .routine _ | .ended => false

/-- A process that fails whenever an error is thrown into it, however often it has been resumed with
values before. -/
def Brittle (resume : R → Input → W → Step P W × R × W) (process : Process P R W) : Prop :=
  ∃ S : Set (Process P R W), process ∈ S ∧ ∀ p ∈ S,
    (∀ e world, ∃ e', (p.step resume (.error e) world).1 = .failed e') ∧
    ∀ v world effect, (p.step resume (.value v) world).1 = .yield effect →
      (p.step resume (.value v) world).2.1 ∈ S

theorem Brittle.fails (hb : process.Brittle resume) (e : TaskError) (world : W) :
    ∃ e', (process.step resume (.error e) world).1 = .failed e' := by
  obtain ⟨S, hS, hclosed⟩ := hb
  exact (hclosed process hS).1 e world

/-- What a brittle process becomes when it yields is brittle. -/
theorem Brittle.resumed (hb : process.Brittle resume)
    (hyield : (process.step resume input world).1 = .yield effect) :
    (process.step resume input world).2.1.Brittle resume := by
  cases input with
  | error e =>
    obtain ⟨e', hfailed⟩ := hb.fails e world
    rw [hyield] at hfailed
    cases hfailed
  | value v =>
    obtain ⟨S, hS, hclosed⟩ := hb
    exact ⟨S, (hclosed process hS).2 v world effect hyield, hclosed⟩

theorem isFixed_step (hfixed : process.isFixed = true) {v : Value}
    (hyield : (process.step resume (.value v) world).1 = .yield effect) :
    (process.step resume (.value v) world).2.1.isFixed = true := by
  cases process with
  | script rest => cases rest <;> simp [step, isFixed] at hyield ⊢
  | watchEvery pattern worker args forking =>
    simp only [step, stepEvery]
    split <;> rfl
  | watchLatest pattern worker args stage =>
    cases stage with
    | listening current => cases current <;> cases v <;> rfl
    | cancelling n => rfl
    | forking =>
      cases htask : v.requireTask with
      | ok task => simp [step, stepLatest, htask, isFixed]
      | error e => simp [step, stepLatest, htask] at hyield
  | routine state => cases hfixed
  | ended => cases hfixed

/-- Scripts and watchers are brittle. -/
theorem brittle_of_isFixed (hfixed : process.isFixed = true) : process.Brittle resume := by
  refine ⟨{ p | p.isFixed = true }, hfixed, fun p hp => ⟨fun e world => ?_, fun v world _ => ?_⟩⟩
  · cases p <;> first | exact ⟨e, rfl⟩ | cases hp
  · exact isFixed_step hp

end Process

namespace Scheduler

variable {P R W : Type} {s s' r : Scheduler P R W} {h : Host P R W} {L : Set TaskId}
variable {id child j : TaskId} {m : Move P} {effect : Effect P W}
variable {e : Scheduler P R W × Move P} {log : List (Scheduler P R W × Move P)}

/-! ## The process of a frail task -/

/-- The process that a task was spawned with is brittle. -/
def Frail (h : Host P R W) (log : List (Scheduler P R W × Move P)) (id : TaskId) : Prop :=
  ∀ e ∈ log, id ∈ arrivals h e → ∀ t process, (e.1.move h e.2).task? id = some t →
    t.process = some process → process.Brittle h.program.resume

theorem Frail.of_append {log' : List (Scheduler P R W × Move P)} (hf : Frail h (log ++ log') id) :
    Frail h log id :=
  fun e he => hf e (List.mem_append_left _ he)

/-- A task that still has a process after its turn has yielded. -/
theorem Run.yielded (run : Run h log s) (hactive : id ∈ s.active) {t' : Task P R W}
    (ht' : (s.move h .step).task? id = some t') (hp' : t'.process.isSome) :
    ∃ effect, s.turn? h = some (id, .yield effect) := by
  obtain ⟨input, hhead⟩ := mem_active.1 hactive
  obtain ⟨rest, hq⟩ := List.head?_eq_some_iff.1 hhead
  obtain ⟨t, ht, hp⟩ := run.find_of_queued (hq ▸ List.mem_cons_self)
  obtain ⟨process, hp⟩ := Option.isSome_iff_exists.1 hp
  have hturn : s.turn? h = some (id, (process.step h.program.resume input s.world).1) := by
    simp [turn?, hq, ht, hp]
  cases hanswer : (process.step h.program.resume input s.world).1 with
  | yield effect => exact ⟨effect, hanswer ▸ hturn⟩
  | done v | failed e =>
    have hended := (ended_of_turn run.tidy hturn (by simp [hanswer, Step.isTerminal])).2 t' ht'
    simp [hended] at hp'

/-- A task that has yielded goes on with what its process became by that. -/
theorem Run.process_of_yield (run : Run h log s) (hturn : s.turn? h = some (id, .yield effect))
    {t' : Task P R W} {process' : Process P R W} (ht' : (s.move h .step).task? id = some t')
    (hp' : t'.process = some process') : ∃ t process input, s.queue.head? = some (id, input) ∧
      s.task? id = some t ∧ t.process = some process ∧
      (process.step h.program.resume input s.world).1 = .yield effect ∧
      process' = (process.step h.program.resume input s.world).2.1 := by
  obtain ⟨t, process, input, rest, hq, ht, hp, hyield, hmove⟩ := turn_yield hturn
  refine ⟨t, process, input, List.head?_eq_some_iff.2 ⟨rest, hq⟩, ht, hp, hyield, ?_⟩
  have htidy := Tidy.storeProcess (s := { s with queue := rest })
    (run.tidy.congr (.of_tasks rfl rfl)) id
    (process.step h.program.resume input s.world).2.1
    (process.step h.program.resume input s.world).2.2
  have hstored := task?_storeProcess (s := { s with queue := rest }) ht
    (process.step h.program.resume input s.world).2.1
    (process.step h.program.resume input s.world).2.2
  rw [hmove, task?_of_tasks (tasks_takeFault _)] at ht'
  rcases process_dispatch htidy hstored effect ht' with hnone | hsame
  · simp [hnone] at hp'
  · exact Option.some.inj (hp'.symm.trans hsame)

/-- A task is frail if it has followed a fixed plan ever since. -/
theorem frail_of_isFixed (hall : (log.all fun e =>
    ((e.1.move h e.2).task? id).all fun t => t.process.all Process.isFixed) = true) :
    Frail h log id := by
  intro e he _ t process ht hp
  have hfixed := List.all_eq_true.1 hall e he
  rw [ht, Option.all_some, hp, Option.all_some] at hfixed
  exact Process.brittle_of_isFixed hfixed

theorem mem_arrivals (h : Host P R W) (m : Move P) (hold : s.isLive id = false)
    (hl : (s.move h m).isLive id) : id ∈ arrivals h (s, m) :=
  List.mem_filter.2 ⟨(mem_keys_iff _ id).2 hl, by simp [hold]⟩

/-- A task that has a process after a move had one before, if it is not new. -/
theorem Run.earlier_process (run : Run h log s) (m : Move P) (hl : s.isLive id) {t' : Task P R W}
    (ht' : (s.move h m).task? id = some t') (hp' : t'.process.isSome) :
    ∃ t, s.task? id = some t ∧ t.process.isSome := by
  obtain ⟨t, ht, honward⟩ := (later_move s h m).onward id t' ht' (run.tidy.forest.fresh id hl)
  refine ⟨t, ht, Option.isSome_iff_ne_none.2 fun hnone => ?_⟩
  simp [honward.ended hnone] at hp'

/-- A task that was spawned with a process of a kind that yielding does not change has a process of
that kind as long as there is one. -/
theorem Run.process_within (run : Run h log s) {S : Set (Process P R W)}
    (hspawned : ∀ e ∈ log, id ∈ Scheduler.arrivals h e → ∀ t process,
      (e.1.move h e.2).task? id = some t → t.process = some process → process ∈ S)
    (hclosed : ∀ p ∈ S, ∀ input world effect,
      (p.step h.program.resume input world).1 = .yield effect →
      (p.step h.program.resume input world).2.1 ∈ S)
    {t : Task P R W} {process : Process P R W} (ht : s.task? id = some t)
    (hp : t.process = some process) : process ∈ S := by
  induction run generalizing t process with
  | new hs =>
    obtain rfl := eq_of_new hs
    cases ht
  | @move log s run m ih =>
    have hearlier : ∀ e ∈ log, id ∈ Scheduler.arrivals h e → ∀ t process,
        (e.1.move h e.2).task? id = some t → t.process = some process → process ∈ S :=
      fun e he => hspawned e (List.mem_append_left _ he)
    cases hl : s.isLive id with
    | false =>
      refine hspawned (s, m) (by simp) ?_ t process ht hp
      exact mem_arrivals h m hl (by simp [isLive_eq, ht])
    | true =>
      by_cases hactive : m = .step ∧ id ∈ s.active
      · obtain ⟨rfl, hactive⟩ := hactive
        obtain ⟨effect, hturn⟩ := run.yielded hactive ht (by simp [hp])
        obtain ⟨v, p, input, -, hv, hvp, hyield, rfl⟩ := run.process_of_yield hturn ht hp
        exact hclosed p (ih hearlier hv hvp) input s.world effect hyield
      · have hidle : m = .step → id ∉ s.active := fun hm hin => hactive ⟨hm, hin⟩
        obtain ⟨u, hu, hup⟩ := run.earlier_process m hl ht (by simp [hp])
        obtain ⟨t', ht', hsame, -⟩ := run.process_move m hidle hu hup
        obtain rfl := Option.some.inj (ht.symm.trans ht')
        exact ih hearlier hu (hsame.symm.trans hp)

/-- The process of a frail task is brittle as long as there is one. -/
theorem Run.brittle (run : Run h log s) (hf : Frail h log id) {t : Task P R W}
    {process : Process P R W} (ht : s.task? id = some t) (hp : t.process = some process) :
    process.Brittle h.program.resume :=
  run.process_within (S := {p | p.Brittle h.program.resume}) hf
    (fun _ hb _ _ _ hyield => hb.resumed hyield) ht hp

/-! ## Turns that yield -/

/-- A task in hand that breaks the contract ends, and nothing is spawned. -/
theorem InHand.ends (hs : InHand h e L s id effect) {outcome : Outcome}
    (heq : s' = (s.finish h id outcome).takeFault.2) : s'.nextTask = s.nextTask ∧
      ∀ t', s'.task? id = some t' → t'.process = none := by
  rw [heq, (quiet_takeFault _).tree.next, nextTask_finish]
  refine ⟨rfl, fun t' ht' => ?_⟩
  rw [task?_of_tasks (tasks_takeFault _)] at ht'
  exact ended_of_finish (hs.tidy.forest.fresh id hs.isLive) hs.isLive h outcome ht'

/-- A task that yields is in hand. Its effect is carried out, or its process ends. -/
theorem Run.in_hand (run : Run h log s) (hturn : s.turn? h = some (id, .yield effect)) :
    ∃ r, InHand h (s, .step) {j | Stranded h log j} r id effect ∧ r.nextTask = s.nextTask ∧
      (∀ j, r.beingCancelled j = true → s.beingCancelled j = true) ∧
      ((∃ r', r.carryOut h id effect = .ok r' ∧ s.move h .step = r'.takeFault.2) ∨
        (s.move h .step).nextTask = s.nextTask ∧
          ∀ t', (s.move h .step).task? id = some t' → t'.process = none) := by
  obtain ⟨t, process, input, rest, hq, ht, hp, hyield, hmove⟩ := turn_yield hturn
  have hstep : process.step h.program.resume input s.world =
      (.yield effect, (process.step h.program.resume input s.world).2) := Prod.ext hyield rfl
  obtain ⟨hstored, hhand⟩ := inHand_of_turn (h := h) run.tidy run.coherent hq ht hp hstep
  have hnext : ({ s with
      queue := rest, world := (process.step h.program.resume input s.world).2.2 }.storeProcess id
        (process.step h.program.resume input s.world).2.1).nextTask = s.nextTask := rfl
  generalize { s with
      queue := rest, world := (process.step h.program.resume input s.world).2.2 }.storeProcess id
        (process.step h.program.resume input s.world).2.1 = q at *
  have hnext' := (quiet_note q h id effect).tree.next.trans hnext
  have hcalm := fun j hj => hstored.calm j ((mild_note q h id effect).calm j hj)
  refine ⟨q.note h id effect, hhand.note, hnext', hcalm, ?_⟩
  rcases dispatch_cases q h id effect with ⟨r', -, hok, heq⟩ | ⟨violation, ⟨-, heq⟩ | ⟨-, heq⟩⟩ <;>
    rw [heq] at hmove
  · exact .inl ⟨r', hok, hmove⟩
  · exact .inr ((hhand.ends hmove).imp_left (·.trans hnext))
  · exact .inr ((hhand.note.ends hmove).imp_left (·.trans hnext'))

/-- A move that spawns signals nobody. -/
theorem Run.calm_of_spawning (run : Run h log s) (m : Move P)
    (hnew : (s.move h m).nextTask ≠ s.nextTask) (hj : (s.move h m).beingCancelled j = true) :
    s.beingCancelled j = true := by
  rcases run.spawning m hnew with ⟨process, args, rfl⟩ | ⟨rfl, a, effect, hturn⟩
  · exact (mild_spawn run.tidy.forest h process args none .root).calm j hj
  · obtain ⟨r, hhand, hnext, hcalm, ⟨r', hok, hmove⟩ | ⟨hsame, -⟩⟩ := run.in_hand hturn
    · rw [hmove, (quiet_takeFault r').tree.next, ← hnext] at hnew
      rw [hmove] at hj
      refine hcalm j ((hhand.deed hok ?_).2 j ((mild_takeFault r').calm j hj))
      rintro target rfl
      exact hnew (quiet_cancel hok).tree.next
    · exact absurd hsame hnew

/-- A task that is spawned in a move is not being cancelled. -/
theorem Run.new_calm (run : Run h log s) (m : Move P) (hold : s.isLive id = false) :
    (s.move h m).beingCancelled id = false := by
  by_contra hc
  rw [Bool.not_eq_false] at hc
  have hl := isLive_of_beingCancelled hc
  have hnew : (s.move h m).nextTask ≠ s.nextTask := by
    intro hsame
    have hid := (run.move (h := h) m).tidy.forest.fresh id hl
    simp [(later_move s h m).isLive (hsame ▸ hid) hl] at hold
  simp [isLive_of_beingCancelled (run.calm_of_spawning m hnew hc)] at hold

/-! ## The signal to a frail task -/

/-- A frail task fails when its turn comes with its signal. -/
theorem Run.fails_of_signal (run : Run h log s) (hf : Frail h log id)
    (hhead : s.queue.head? = some (id, .error (.cancelled id))) :
    ∃ error, s.turn? h = some (id, .failed error) := by
  obtain ⟨rest, hq⟩ := List.head?_eq_some_iff.1 hhead
  obtain ⟨t, ht, hp⟩ := run.find_of_queued (hq ▸ List.mem_cons_self)
  obtain ⟨process, hp⟩ := Option.isSome_iff_exists.1 hp
  obtain ⟨error, hfailed⟩ := (run.brittle hf ht hp).fails (.cancelled id) s.world
  exact ⟨error, by simp [turn?, hq, ht, hp, hfailed]⟩

theorem Run.silent_of_signal (run : Run h log s) (hf : Frail h log id)
    (hm : (id, .error (.cancelled id)) ∈ s.queue) : s.turn? h ≠ some (id, .yield effect) := by
  intro hturn
  obtain ⟨t, process, input, rest, hq, -⟩ := turn_yield hturn
  obtain rfl := run.input_of_head hq hm
  obtain ⟨error, hfails⟩ := run.fails_of_signal hf (List.head?_eq_some_iff.2 ⟨rest, hq⟩)
  rw [hturn] at hfails
  cases hfails

/-- The signal to a task with a process is queued when a tree is cancelled that it belongs to. -/
theorem CancelsTree.signal_queued {target : TaskId} (hs : CancelsTree s target)
    (hcalm : s.beingCancelled id = false) (hc : (s.cancelSubtree target).beingCancelled id = true)
    (hp : s.hasProcess id = true) :
    (id, .error (.cancelled id)) ∈ (s.cancelSubtree target).queue := by
  have hm : id ∈ s.subtree target := by
    by_contra hm
    simp [hs.others id hm, hcalm] at hc
  have hmem : id ∈ (s.calm (s.subtree target)).filter s.hasProcess :=
    List.mem_filter.2 ⟨List.mem_filter.2 ⟨hm, by simp [hcalm]⟩, hp⟩
  rw [hs.queue]
  exact List.mem_append_left _ (List.mem_map_of_mem hmem)

/-- A task that is signalled on its turn, and goes on, has its signal queued. -/
theorem Run.signal_of_turn (run : Run h log s) (hturn : s.turn? h = some (id, .yield effect))
    (hcalm : s.beingCancelled id = false) (hc : (s.move h .step).beingCancelled id = true)
    {t : Task P R W} (ht : (s.move h .step).task? id = some t) (hp : t.process.isSome) :
    (id, .error (.cancelled id)) ∈ (s.move h .step).queue := by
  obtain ⟨r, hhand, -, hsame, ⟨r', hok, hmove⟩ | ⟨-, hended⟩⟩ := run.in_hand hturn
  · have hflag : r.beingCancelled id ≠ true := fun hr => by simp [hsame id hr] at hcalm
    rw [hmove] at hc ht ⊢
    have hc' := (mild_takeFault r').calm id hc
    by_cases hne : ∀ target, effect ≠ .cancel target
    · exact absurd ((hhand.deed hok hne).2 id hc') hflag
    · push Not at hne
      obtain ⟨target, rfl⟩ := hne
      rcases hhand.cancels hok with hmild | ⟨q, hmild, hquiet, rfl⟩
      · exact absurd (hmild.calm id hc') hflag
      · have htree := (hhand.tidy.forest.congr hquiet.tree.shape).cancelsTree target
        have hprocess : q.hasProcess id = true := by
          rw [← hasProcess_of_sameTree (htree.spared.tree.trans (quiet_takeFault _).tree)]
          simp [hasProcess, ht, hp]
        rw [queue_takeFault]
        exact htree.signal_queued (Bool.eq_false_iff.2 fun hq => hflag (hmild.calm id hq)) hc'
          hprocess
  · simp [hended t ht] at hp

/-- The signal of a task that is being cancelled is queued for it until it is stepped with it. -/
theorem Run.signal_sent (run : Run h log s) (hc : s.beingCancelled id = true) {t : Task P R W}
    (ht : s.task? id = some t) (hp : t.process.isSome) :
    (id, .error (.cancelled id)) ∈ s.queue ∨
      ∃ e ∈ log, Receives e id (.error (.cancelled id)) := by
  induction run generalizing t with
  | new hs =>
    obtain rfl := eq_of_new hs
    cases ht
  | @move log s run m ih =>
    cases hl : s.isLive id with
    | false => simp [run.new_calm m hl] at hc
    | true =>
      obtain ⟨u, hu, hup⟩ := run.earlier_process m hl ht hp
      cases hcalm : s.beingCancelled id with
      | false =>
        by_cases hactive : m = .step ∧ id ∈ s.active
        · obtain ⟨rfl, hactive⟩ := hactive
          obtain ⟨effect, hturn⟩ := run.yielded hactive ht hp
          exact .inl (run.signal_of_turn hturn hcalm hc ht hp)
        · have hidle : m = .step → id ∉ s.active := fun hm hin => hactive ⟨hm, hin⟩
          exact .inl (run.signal_of_cancelled m hidle hu hup hcalm hc)
      | true =>
        rcases ih hcalm hu hup with hm | ⟨e, he, hreceives⟩
        · rcases run.answerKept m hm with hturn | hkept | ⟨hkept, -⟩
          · exact .inr ⟨(s, m), by simp, hturn⟩
          · exact .inl hkept
          · exact .inl hkept
        · exact .inr ⟨e, List.mem_append_left _ he, hreceives⟩

/-- As long as a frail task that is being cancelled has a process, its signal is queued. -/
theorem Run.signal_of_frail (run : Run h log s) (hf : Frail h log id)
    (hc : s.beingCancelled id = true) {t : Task P R W} (ht : s.task? id = some t)
    (hp : t.process.isSome) : (id, .error (.cancelled id)) ∈ s.queue := by
  refine (run.signal_sent hc ht hp).resolve_right ?_
  rintro ⟨e, he, hstep, hhead⟩
  obtain ⟨before, after, rfl, hbefore⟩ := run.of_mem e he
  obtain ⟨error, hfails⟩ := hbefore.fails_of_signal hf.of_append hhead
  simp [(run.ended he hstep hfails rfl).2 t ht] at hp

/-! ## The children of a frail task -/

/-- A deed that signals a task cancels a tree that it belongs to. -/
theorem Deed.signals (hd : Deed h e s s') (hcalm : s.beingCancelled id = false)
    (hc : s'.beingCancelled id = true) :
    ∃ root, id ∈ s.subtree root ∧ Forest s ∧ s' = s.cancelSubtree root := by
  have hflag : s.beingCancelled id ≠ true := by simp [hcalm]
  cases hd with
  | mild hs => exact absurd (hs.calm id hc) hflag
  | cancel root hf =>
    refine ⟨root, ?_, hf, rfl⟩
    by_contra hm
    exact hflag ((hf.cancelsTree root).others id hm ▸ hc)
  | call => exact absurd (calm_call _ _ _ _ id hc) hflag
  | take => exact absurd (calm_take _ _ _ id hc) hflag
  | publish _ hs => exact absurd (hs.calm id hc) hflag
  | complete c =>
    refine absurd ?_ hflag
    unfold applyCompletion at hc
    split at hc
    · dsimp only at hc
      split at hc
      · exact (resumes_wakeLast _ _ (.ofResult c.result)).calm id hc
      · exact hc
    · split at hc <;> exact hc

theorem Later.parent?_eq (hs : Later s s') (hid : child.val < s.nextTask)
    (hp : s'.parent? child = some id) : s.parent? child = some id := by
  obtain ⟨t', ht', hparent⟩ := Option.bind_eq_some_iff.1 hp
  obtain ⟨t, ht, honward⟩ := hs.onward child t' ht' hid
  simp [parent?, ht, ← honward.parent, hparent]

/-- When a task is signalled in the course of some deeds, so are its children. -/
theorem Deeds.signals_children (hs : Deeds h e s s') (hid : child.val < s.nextTask)
    (hp : s'.parent? child = some id) (hcalm : s.beingCancelled id = false)
    (hc : s'.beingCancelled id = true) : s'.beingCancelled child = true := by
  induction hs using Relation.ReflTransGen.head_induction_on with
  | refl => simp [hcalm] at hc
  | @head s r hd hrest ih =>
    have hlater : Later r s' := Deeds.later hrest
    have hid' := Nat.lt_of_lt_of_le hid hd.later.next
    cases hr : r.beingCancelled id with
    | false => exact ih hid' hr
    | true =>
      obtain ⟨root, hm, hf, rfl⟩ := hd.signals hcalm hr
      have hparent := (hd.later.trans hlater).parent?_eq hid hp
      exact hlater.beingCancelled hid' (isLive_of_parent hp)
        (beingCancelled_cancelSubtree hf (hf.child_mem_subtree hm hparent))

/-- Branches run scripts. -/
theorem Run.frail_branch (run : Run h log s) {t : Task P R W} (ht : s.task? id = some t)
    (hrole : t.role.isBranch) : Frail h log id := by
  intro e he harrives u process hu hp
  obtain ⟨before, after, -, hbefore⟩ := run.of_mem e he
  have hid := (hbefore.move (h := h) e.2).tidy.forest.fresh id (by simp [isLive_eq, hu])
  obtain ⟨u', hu', honward⟩ := (run.later e he).onward id t ht hid
  obtain rfl := Option.some.inj (hu.symm.trans hu')
  rcases (hbefore.move e.2).scripted id u process hu (honward.role ▸ hrole) hp with
    rfl | ⟨effect, rfl, -⟩
  · exact Process.brittle_of_isFixed rfl
  · exact Process.brittle_of_isFixed rfl

/-- The children of frail tasks that are being cancelled are being cancelled. -/
def Thorough (h : Host P R W) (log : List (Scheduler P R W × Move P)) (s : Scheduler P R W) :
    Prop :=
  ∀ id child, Frail h log id → s.beingCancelled id = true → s.parent? child = some id →
    s.beingCancelled child = true

/-- What acts for a frail task that is being cancelled is frail and is being cancelled. -/
theorem Thorough.acting (hs : Thorough h log s) (run : Run h log s) (hf : Frail h log id)
    (hc : s.beingCancelled id = true) {a : TaskId} (ha : ActsFor s id a) :
    Frail h log a ∧ s.beingCancelled a = true := by
  induction ha with
  | self => exact ⟨hf, hc⟩
  | @branch b parent t ht hrole hparent _ ih =>
    exact ⟨run.frail_branch ht hrole, hs parent b ih.1 ih.2 (by rw [parent?_eq ht, hparent])⟩

/-- A frail task that is being cancelled gets no more children. -/
theorem Thorough.barren (hs : Thorough h log s) (run : Run h log s) (hf : Frail h log id)
    (m : Move P) (hc : (s.move h m).beingCancelled id = true)
    (hp : (s.move h m).parent? child = some id) : child.val < s.nextTask := by
  by_contra hold
  have hnew := Nat.le_of_not_lt hold
  obtain ⟨-, a, effect, hturn, hacts⟩ := run.parent?_of_move m hnew hp
  have hc' := run.calm_of_spawning m (run.nextTask_of_new m hnew hp) hc
  obtain ⟨hfrail, hcancel⟩ := hs.acting run hf hc' hacts
  obtain ⟨t, process, -, -, -, ht, hprocess, -⟩ := turn_yield hturn
  have hsignal := run.signal_of_frail hfrail hcancel ht (by simp [hprocess])
  exact run.silent_of_signal hfrail hsignal hturn

theorem Run.thorough (run : Run h log s) : Thorough h log s := by
  induction run with
  | new hs =>
    obtain rfl := eq_of_new hs
    intro id child _ hc
    cases hc
  | @move log s run m ih =>
    intro id child hf hc hp
    have hold := ih.barren run hf.of_append m hc hp
    have hlater := later_move s h m
    -- the child is old, so either both were signalled before, or the task is signalled just now
    cases hcalm : s.beingCancelled id with
    | true =>
      have hcancel := ih id child hf.of_append hcalm (hlater.parent?_eq hold hp)
      exact hlater.beingCancelled hold (isLive_of_parent hp) hcancel
    | false =>
      have hcalm' : (s.popped m).beingCancelled id = false := by rwa [beingCancelled_popped]
      exact (run.deeds m).signals_children (by cases m <;> exact hold) hp hcalm' hc

/-- A task that is live is not spawned again. -/
theorem Frail.append (hf : Frail h log id) (hid : id.val < s.nextTask) (ms : List (Move P)) :
    Frail h (log ++ s.history h ms) id := by
  intro e he harrives t process ht hp
  rcases List.mem_append.1 he with he | he
  · exact hf e he harrives t process ht hp
  · obtain ⟨before, after, -, hstate⟩ := mem_history he
    have hold : e.1.isLive id = false := by simpa [arrivals] using (List.mem_filter.1 harrives).2
    have hnext := Nat.lt_of_lt_of_le hid (later_moves s h before).next
    rw [← hstate] at hnext
    have hl := (later_move e.1 h e.2).isLive hnext (by simp [isLive_eq, ht])
    simp [hl] at hold

/-- A frail task that is being cancelled has no children but those it has already. -/
theorem Run.barren_moves (run : Run h log s) (hf : Frail h log id)
    (hc : s.beingCancelled id = true) (ms : List (Move P))
    (hp : (s.moves h ms).parent? child = some id) : child.val < s.nextTask := by
  induction ms generalizing log s with
  | nil => exact run.tidy.forest.fresh child (isLive_of_parent hp)
  | cons m rest ih =>
    have hid := run.tidy.forest.fresh id (isLive_of_beingCancelled hc)
    have hlater := later_moves (s.move h m) h rest
    -- the parent of a live task is live at the end, hence also after the first move
    have hl : (s.move h m).isLive id :=
      hlater.isLive (Nat.lt_of_lt_of_le hid (later_move s h m).next)
        (((run.move m).moves rest).tidy.forest.isLive_parent hp)
    have hc' := (later_move s h m).beingCancelled hid hl hc
    have hold := ih (run.move m) (hf.append hid [m]) hc' hp
    exact run.thorough.barren run hf m hc' (hlater.parent?_eq hold hp)

end Scheduler

end CoopTasks

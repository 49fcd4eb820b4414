import CoopTasks.Proofs.Roles
import CoopTasks.Proofs.Watchers

/-!
# One worker at a time

A watcher that keeps the worker of the last notification minds one task at most: the worker that it
forked last and did not cancel since. Its other children are being cancelled. Whatever happens to it
between its turns, it forks only when it minds nobody, and nobody else forks on its behalf.
-/

namespace CoopTasks

variable {P R W : Type}

namespace Process

variable {resume : R → Input → W → Step P W × R × W} {process : Process P R W} {input : Input}
variable {pattern : Pattern} {worker : P} {args : List Value} {stage : LatestStage} {v : Value}
variable {world : W} {effect : Effect P W}

/-- A turn of a watcher that cancels the last worker before it forks the next one: what it is
resumed with, what it yields, and the stage that it comes to. -/
inductive LatestTurn (pattern : Pattern) (worker : P) (args : List Value) :
    LatestStage → Value → Effect P W → LatestStage → Prop where
  | listens (current : Option TaskId) (v : Value) :
      LatestTurn pattern worker args (.listening current) v (.take pattern) (.listening current)
  | cancels (previous : TaskId) (v : Value) :
      LatestTurn pattern worker args (.listening (some previous)) v (.cancel previous)
        (.cancelling v)
  | forks (v : Value) : LatestTurn pattern worker args (.listening none) v
      (.fork worker (args ++ [v])) .forking
  | replaces (n v : Value) : LatestTurn pattern worker args (.cancelling n) v
      (.fork worker (args ++ [n])) .forking
  | minds (task : TaskId) : LatestTurn pattern worker args .forking (.task task) (.take pattern)
      (.listening (some task))

theorem latest_turn (hyield : ((watchLatest pattern worker args stage).step resume input world).1 =
    .yield effect) : ∃ v stage', input = .value v ∧
      ((watchLatest pattern worker args stage).step resume input world).2.1 =
        .watchLatest pattern worker args stage' ∧
      LatestTurn pattern worker args stage v effect stage' := by
  cases input with
  | error e => simp [step] at hyield
  | value v =>
    cases stage with
    | listening current =>
      cases current <;> cases v <;> cases hyield <;>
        exact ⟨_, _, rfl, rfl, by constructor⟩
    | cancelling n =>
      cases hyield
      exact ⟨v, .forking, rfl, rfl, .replaces n v⟩
    | forking =>
      cases v <;> cases hyield
      exact ⟨_, _, rfl, rfl, .minds _⟩

/-- The watchers that cancel the last worker before they fork the next one. -/
def latest : Set (Process P R W) :=
  {p | ∃ pattern worker args stage, p = .watchLatest pattern worker args stage}

end Process

namespace Scheduler

variable {s s' : Scheduler P R W} {h : Host P R W} {m : Move P} {t c id a : TaskId}
variable {effect : Effect P W} {minded : Option TaskId}
variable {log : List (Scheduler P R W × Move P)}

/-! ## The process of the watcher -/

/-- The task was spawned as a watcher that keeps the worker of the last notification. -/
def WatchesLatest (h : Host P R W) (log : List (Scheduler P R W × Move P)) (t : TaskId) : Prop :=
  ∀ e ∈ log, t ∈ arrivals h e → ∃ pattern worker args,
    (e.1.move h e.2).Runs t {.watchLatest pattern worker args (.listening none)}

theorem WatchesLatest.of_append {log' : List (Scheduler P R W × Move P)}
    (hw : WatchesLatest h (log ++ log') t) : WatchesLatest h log t :=
  fun e he => hw e (List.mem_append_left _ he)

theorem WatchesLatest.spawned (hw : WatchesLatest h log t) {e : Scheduler P R W × Move P}
    (he : e ∈ log) (harrives : t ∈ arrivals h e) {u : Task P R W} {process : Process P R W}
    (hu : (e.1.move h e.2).task? t = some u) (hp : u.process = some process) :
    process ∈ Process.latest := by
  obtain ⟨pattern, worker, args, v, process', hv, hvp, rfl⟩ := hw e he harrives
  obtain rfl := Option.some.inj (hu.symm.trans hv)
  obtain rfl := Option.some.inj (hp.symm.trans hvp)
  exact ⟨pattern, worker, args, _, rfl⟩

theorem WatchesLatest.frail (hw : WatchesLatest h log t) : Frail h log t := by
  intro e he harrives u process hu hp
  obtain ⟨pattern, worker, args, stage, rfl⟩ := hw.spawned he harrives hu hp
  exact Process.brittle_of_isFixed rfl

/-- The process of the watcher as long as there is one. -/
theorem Run.process_latest (run : Run h log s) (hw : WatchesLatest h log t) {u : Task P R W}
    {process : Process P R W} (hu : s.task? t = some u) (hp : u.process = some process) :
    process ∈ Process.latest := by
  refine run.process_within (fun e he harrives u process => hw.spawned he harrives) ?_ hu hp
  rintro p ⟨pattern, worker, args, stage, rfl⟩ input world effect hyield
  obtain ⟨v, stage', -, hnext, -⟩ := Process.latest_turn hyield
  exact ⟨pattern, worker, args, stage', hnext⟩

/-- On its turn the watcher does what its stage tells. -/
structure TakesTurn (h : Host P R W) (s : Scheduler P R W) (t : TaskId) (stage : LatestStage)
    (v : Value) (effect : Effect P W) (stage' : LatestStage) (pattern : Pattern) (worker : P)
    (args : List Value) : Prop where
  head : s.queue.head? = some (t, .value v)
  runs : s.Runs t {.watchLatest pattern worker args stage}
  turn : Process.LatestTurn pattern worker args stage v effect stage'
  next : ∀ u, (s.move h .step).task? t = some u → u.process = none ∨
    (s.move h .step).Runs t {.watchLatest pattern worker args stage'}

theorem Run.takesTurn (run : Run h log s) (hw : WatchesLatest h log t)
    (hturn : s.turn? h = some (t, .yield effect)) : ∃ stage v stage' pattern worker args,
      TakesTurn h s t stage v effect stage' pattern worker args := by
  obtain ⟨u, process, input, rest, hq, hu, hp, hyield, -⟩ := turn_yield hturn
  have hlatest := run.process_latest hw hu hp
  obtain ⟨pattern, worker, args, stage, rfl⟩ := hlatest
  obtain ⟨v, stage', rfl, hnext, hlatest⟩ := Process.latest_turn hyield
  have hhead := List.head?_eq_some_iff.2 ⟨rest, hq⟩
  refine ⟨stage, v, stage', pattern, worker, args, hhead, ⟨u, _, hu, hp, rfl⟩, hlatest,
    fun u' hu' => ?_⟩
  cases hp' : u'.process with
  | none => exact .inl rfl
  | some process' =>
    obtain ⟨w, q, input, hhead', hw', hq', -, rfl⟩ := run.process_of_yield hturn hu' hp'
    obtain rfl := Option.some.inj (hu.symm.trans hw')
    obtain rfl := Option.some.inj (hp.symm.trans hq')
    cases hhead.symm.trans hhead'
    exact .inr ⟨u', _, hu', hp', hnext⟩

/-! ## Its children -/

/-- A turn whose effect spawns nothing. -/
theorem Run.nothing_new (run : Run h log s) (hturn : s.turn? h = some (a, .yield effect))
    (hquiet : ∀ r r', r.carryOut h a effect = .ok r' → Quiet r r') :
    (s.move h .step).nextTask = s.nextTask := by
  obtain ⟨r, -, hnext, -, ⟨r', hok, hmove⟩ | ⟨hsame, -⟩⟩ := run.in_hand hturn
  · rw [hmove, (quiet_takeFault r').tree.next, (hquiet r r' hok).tree.next, hnext]
  · exact hsame

/-- A fork spawns one task. -/
theorem Run.new_of_fork (run : Run h log s) {process : P} {args : List Value}
    (hturn : s.turn? h = some (a, .yield (.fork process args))) {u : Task P R W}
    (hu : (s.move h .step).task? c = some u) (hnew : s.nextTask ≤ c.val) :
    c = ⟨s.nextTask⟩ ∧ u.role = .forked := by
  obtain ⟨r, hhand, hnext, -, ⟨r', hok, hmove⟩ | ⟨hsame, -⟩⟩ := run.in_hand hturn
  · cases hok
    rw [hmove] at hu
    have htree := (((quiet_enqueueLast
      (r.spawn h process args (some (r.forkOwner a)) .forked).2 ⟨r.nextTask⟩ (.value .unit)).trans
        (quiet_answer _ a (.task ⟨r.nextTask⟩))).trans (quiet_takeFault _)).tree
    rw [← hnext] at hnew ⊢
    obtain ⟨hid, hrole, -⟩ := task_of_spawn hhand.tidy.forest htree hu hnew
    exact ⟨hid, hrole⟩
  · have hl : (s.move h .step).isLive c := by simp [isLive_eq, hu]
    exact absurd (hsame ▸ (run.move .step).tidy.forest.fresh c hl) (Nat.not_lt.2 hnew)

/-- No child of the task is a branch of a group. -/
def Branchless (s : Scheduler P R W) (t : TaskId) : Prop :=
  ∀ c u, s.task? c = some u → u.parent = some t → u.role.isBranch = false

theorem ActsFor.eq_of_branchless (ha : ActsFor s t a) (hs : Branchless s t) : a = t := by
  induction ha with
  | self => rfl
  | @branch b parent u hu hrole hparent _ ih =>
    rw [ih] at hparent
    rw [hs b u hu hparent] at hrole
    cases hrole

/-- The children of the watcher are those that it forks itself. -/
theorem Branchless.new_child (hs : Branchless s t) (run : Run h log s) (hw : WatchesLatest h log t)
    (hnew : s.nextTask ≤ c.val) {u : Task P R W} (hu : (s.move h m).task? c = some u)
    (hparent : u.parent = some t) : m = .step ∧ c = ⟨s.nextTask⟩ ∧ u.role = .forked ∧
      ∃ worker args, s.turn? h = some (t, .yield (.fork worker args)) := by
  have hp : (s.move h m).parent? c = some t := by rw [parent?_eq hu, hparent]
  obtain ⟨rfl, a, effect, hturn, hacts⟩ := run.parent?_of_move m hnew hp
  obtain rfl := hacts.eq_of_branchless hs
  have hidle := run.nextTask_of_new .step hnew hp
  obtain ⟨stage, v, stage', pattern, worker, args, hturns⟩ := run.takesTurn hw hturn
  cases hturns.turn with
  | listens | minds => exact absurd (run.nothing_new hturn fun _ _ => quiet_take) hidle
  | cancels previous v => exact absurd (run.nothing_new hturn fun _ _ => quiet_cancel) hidle
  | forks | replaces =>
    obtain ⟨hid, hrole⟩ := run.new_of_fork hturn hu hnew
    exact ⟨rfl, hid, hrole, _, _, hturn⟩

/-- Nobody ever acts for a watcher. -/
theorem Run.branchless (run : Run h log s) (hw : WatchesLatest h log t) : Branchless s t := by
  induction run with
  | new hs =>
    obtain rfl := eq_of_new hs
    intro c u hu
    cases hu
  | @move log s run m ih =>
    intro c u hu hparent
    by_cases hnew : s.nextTask ≤ c.val
    · obtain ⟨-, -, hrole, -⟩ := (ih hw.of_append).new_child run hw.of_append hnew hu hparent
      simp [hrole, Role.isBranch]
    · obtain ⟨v, hv, honward⟩ := (later_move s h m).onward c u hu (Nat.not_le.1 hnew)
      rw [honward.role]
      exact ih hw.of_append c v hv (honward.parent.symm.trans hparent)

/-- A child of the watcher is old, or the watcher has just forked it. -/
theorem Run.old_or_forked (run : Run h log s) (hw : WatchesLatest h log t)
    (hp : (s.move h m).parent? c = some t) : c.val < s.nextTask ∨ m = .step ∧
      c = ⟨s.nextTask⟩ ∧ ∃ worker args, s.turn? h = some (t, .yield (.fork worker args)) := by
  by_cases hnew : s.nextTask ≤ c.val
  · obtain ⟨u, hu, hparent⟩ := Option.bind_eq_some_iff.1 hp
    obtain ⟨hstep, hid, -, hturn⟩ := (run.branchless hw).new_child run hw hnew hu hparent
    exact .inr ⟨hstep, hid, hturn⟩
  · exact .inl (Nat.not_le.1 hnew)

/-! ## The worker that it minds -/

/-- Every child but the one that is minded is being cancelled. -/
def Minds (s : Scheduler P R W) (t : TaskId) (minded : Option TaskId) : Prop :=
  ∀ c, s.parent? c = some t → s.beingCancelled c = false → minded = some c

/-- Where a watcher stands that minds this worker, or nobody. -/
inductive Minding (s : Scheduler P R W) (t : TaskId) : Option TaskId → Prop where
  | listening {pattern : Pattern} {worker : P} {args : List Value} {current : Option TaskId} :
      s.Runs t {.watchLatest pattern worker args (.listening current)} → Minding s t current
  | cancelling {pattern : Pattern} {worker : P} {args : List Value} {n : Value} :
      s.Runs t {.watchLatest pattern worker args (.cancelling n)} → Minding s t none
  | forking {pattern : Pattern} {worker : P} {args : List Value} {c : TaskId} :
      s.Runs t {.watchLatest pattern worker args .forking} → (t, .value (.task c)) ∈ s.queue →
      Minding s t (some c)

/-- The task is being cancelled, or its process has ended. -/
def Resigned (s : Scheduler P R W) (t : TaskId) : Prop :=
  s.beingCancelled t = true ∨ ∀ u, s.task? t = some u → u.process = none

/-- The watcher knows the only one of its children that is not being cancelled, unless it forks
nothing any more. -/
structure Succession (s : Scheduler P R W) (t : TaskId) (minded : Option TaskId) : Prop where
  minds : Minds s t minded
  station : Minding s t minded ∨ Resigned s t

theorem Runs.unique {p q : Process P R W} (hp : s.Runs t {p}) (hq : s.Runs t {q}) : p = q := by
  obtain ⟨u, p', hu, hup, rfl⟩ := hp
  obtain ⟨v, q', hv, hvq, rfl⟩ := hq
  obtain rfl := Option.some.inj (hu.symm.trans hv)
  exact Option.some.inj (hup.symm.trans hvq)

/-- An old child that is not being cancelled is the one that was minded. -/
theorem Minds.old (hs : Minds s t minded) (hlater : Later s s') (hid : c.val < s.nextTask)
    (hp : s'.parent? c = some t) (hcalm : s'.beingCancelled c = false) : minded = some c := by
  refine hs c (hlater.parent?_eq hid hp) ?_
  by_contra hc
  rw [Bool.not_eq_false] at hc
  rw [hlater.beingCancelled hid (isLive_of_parent hp) hc] at hcalm
  cases hcalm

theorem Minds.later (hs : Minds s t minded) (hlater : Later s s')
    (hold : ∀ c, s'.parent? c = some t → c.val < s.nextTask) : Minds s' t minded :=
  fun c hp hcalm => hs.old hlater (hold c hp) hp hcalm

theorem Resigned.later (hs : Resigned s t) (hlater : Later s s') (hid : t.val < s.nextTask) :
    Resigned s' t := by
  rcases hs with hc | hended
  · by_cases hl : s'.isLive t
    · exact .inl (hlater.beingCancelled hid hl hc)
    · refine .inr fun u hu => absurd ?_ hl
      simp [isLive_eq, hu]
  · refine .inr fun u' hu' => ?_
    obtain ⟨u, hu, honward⟩ := hlater.onward t u' hu' hid
    exact honward.ended (hended u hu)

/-- Nobody but the watcher changes what it minds. -/
theorem Succession.idle (hs : Succession s t minded) (run : Run h log s)
    (hw : WatchesLatest h log t) (hl : s.isLive t) (hidle : m = .step → t ∉ s.active) :
    Succession (s.move h m) t minded := by
  have hlater := later_move s h m
  have hid := run.tidy.forest.fresh t hl
  refine ⟨hs.minds.later hlater fun c hp => ?_, ?_⟩
  · refine (run.old_or_forked hw hp).resolve_right ?_
    rintro ⟨hstep, -, worker, args, hturn⟩
    exact hidle hstep (mem_active_of_turn hturn)
  · rcases hs.station with hminding | hresigned
    · cases hminding with
      | listening hruns => exact .inl (.listening (run.runs_move hruns m hidle))
      | cancelling hruns => exact .inl (.cancelling (run.runs_move hruns m hidle))
      | @forking pattern worker args c hruns hm =>
        have hturn : ¬(m = .step ∧ s.queue.head? = some (t, .value (.task c))) := by
          rintro ⟨hstep, hhead⟩
          exact hidle hstep (by simp [active, hhead])
        obtain ⟨hruns', -, hkept | ⟨-, -, hc⟩⟩ := run.queued_move hm hruns hturn
        · exact .inl (.forking hruns' hkept)
        · exact .inr (.inl hc)
    · exact .inr (hresigned.later hlater hid)

/-- A watcher that forks nothing any more does not yield. -/
theorem Resigned.silent (hs : Resigned s t) (run : Run h log s) (hw : WatchesLatest h log t) :
    s.turn? h ≠ some (t, .yield effect) := by
  intro hturn
  obtain ⟨u, process, -, -, -, hu, hp, -⟩ := turn_yield hturn
  rcases hs with hc | hended
  · have hsignal := run.signal_of_frail hw.frail hc hu (by simp [hp])
    exact run.silent_of_signal hw.frail hsignal hturn
  · rw [hended u hu] at hp
    cases hp

/-! ## The turns of the watcher -/

/-- What a watcher becomes by its turn, if it does not end. -/
theorem TakesTurn.station {stage stage' : LatestStage} {v : Value} {pattern : Pattern} {worker : P}
    {args : List Value} (hs : TakesTurn h s t stage v effect stage' pattern worker args) :
    (s.move h .step).Runs t {.watchLatest pattern worker args stage'} ∨
      Resigned (s.move h .step) t := by
  by_cases hruns : (s.move h .step).Runs t {.watchLatest pattern worker args stage'}
  · exact .inl hruns
  · exact .inr (.inr fun u hu => (hs.next u hu).resolve_right hruns)

theorem Minding.of_listening {pattern : Pattern} {worker : P} {args : List Value}
    {current : Option TaskId} (hs : Minding s t minded)
    (hruns : s.Runs t {.watchLatest pattern worker args (.listening current)}) :
    minded = current := by
  cases hs with
  | listening hruns' =>
    cases hruns.unique hruns'
    rfl
  | cancelling hruns' => cases hruns.unique hruns'
  | forking hruns' => cases hruns.unique hruns'

theorem Minding.of_cancelling {pattern : Pattern} {worker : P} {args : List Value} {n : Value}
    (hs : Minding s t minded)
    (hruns : s.Runs t {.watchLatest pattern worker args (.cancelling n)}) : minded = none := by
  cases hs with
  | listening hruns' => cases hruns.unique hruns'
  | cancelling => rfl
  | forking hruns' => cases hruns.unique hruns'

theorem Minding.of_forking {pattern : Pattern} {worker : P} {args : List Value}
    (hs : Minding s t minded) (hruns : s.Runs t {.watchLatest pattern worker args .forking}) :
    ∃ c, minded = some c ∧ (t, .value (.task c)) ∈ s.queue := by
  cases hs with
  | listening hruns' => cases hruns.unique hruns'
  | cancelling hruns' => cases hruns.unique hruns'
  | forking _ hm => exact ⟨_, rfl, hm⟩

/-- A turn that spawns nothing leaves the watcher with the children that it has. -/
theorem Minds.quiet_turn (hs : Minds s t minded) (run : Run h log s)
    (hturn : s.turn? h = some (t, .yield effect))
    (hquiet : ∀ r r', r.carryOut h t effect = .ok r' → Quiet r r') :
    Minds (s.move h .step) t minded :=
  hs.later (later_move s h .step) fun c hp =>
    run.nothing_new hturn hquiet ▸ (run.move .step).tidy.forest.fresh c (isLive_of_parent hp)

/-- The child that a watcher cancels is not minded any more. -/
theorem Minds.cancel (hs : Minds s t minded) (run : Run h log s) {previous : TaskId}
    (hturn : s.turn? h = some (t, .yield (.cancel previous))) (hminded : minded = some previous) :
    Minds (s.move h .step) t none := by
  intro c hp hcalm
  have hlater := later_move s h .step
  have hsame := run.nothing_new hturn fun _ _ => quiet_cancel
  have hid : c.val < s.nextTask :=
    hsame ▸ (run.move .step).tidy.forest.fresh c (isLive_of_parent hp)
  obtain rfl : previous = c :=
    Option.some.inj (hminded.symm.trans (hs.old hlater hid hp hcalm))
  have hforest := run.tidy.forest
  have hparent := hlater.parent?_eq hid hp
  have hl := isLive_of_parent hparent
  have houter : ¬Below s previous t := fun hb =>
    absurd (hforest.older previous t hparent) (Nat.not_lt.2 (hb.le hforest))
  have hcancelled := run.cancelling_of_cancel hturn hl houter
    ((hforest.mem_subtree previous previous).2 ⟨hl, .self⟩)
  rw [hcalm] at hcancelled
  cases hcancelled

/-- A watcher that minds nobody minds the worker that it forks. -/
theorem Minds.fork (hs : Minds s t none) (run : Run h log s) (hw : WatchesLatest h log t) :
    Minds (s.move h .step) t (some ⟨s.nextTask⟩) := by
  intro c hp hcalm
  rcases run.old_or_forked hw hp with hid | ⟨-, rfl, -⟩
  · cases hs.old (later_move s h .step) hid hp hcalm
  · rfl

/-- A watcher forks when it minds nobody. -/
theorem Succession.free_of_fork (hs : Succession s t minded) (run : Run h log s)
    (hw : WatchesLatest h log t) {worker : P} {args : List Value}
    (hturn : s.turn? h = some (t, .yield (.fork worker args))) : minded = none := by
  obtain ⟨stage, v, stage', pattern, worker, args, hturns⟩ := run.takesTurn hw hturn
  have hminding := hs.station.resolve_right fun hr => hr.silent run hw hturn
  cases hturns.turn with
  | forks => exact hminding.of_listening hturns.runs
  | replaces => exact hminding.of_cancelling hturns.runs

/-- On its turn the watcher goes from one worker to the next. -/
theorem Succession.turn (hs : Succession s t minded) (run : Run h log s)
    (hw : WatchesLatest h log t) (hturn : s.turn? h = some (t, .yield effect)) :
    ∃ minded', Succession (s.move h .step) t minded' := by
  obtain ⟨stage, v, stage', pattern, worker, args, hturns⟩ := run.takesTurn hw hturn
  have hminding := hs.station.resolve_right fun hr => hr.silent run hw hturn
  have hstation := hturns.station
  cases hturns.turn with
  | listens current v =>
    obtain rfl := hminding.of_listening hturns.runs
    exact ⟨minded, hs.minds.quiet_turn run hturn fun _ _ => quiet_take,
      hstation.imp_left .listening⟩
  | cancels previous v =>
    exact ⟨none, hs.minds.cancel run hturn (hminding.of_listening hturns.runs),
      hstation.imp_left .cancelling⟩
  | forks | replaces =>
    obtain rfl := hs.free_of_fork run hw hturn
    have hqueued : (t, .value (.task ⟨s.nextTask⟩)) ∈ (s.move h .step).queue := by
      rw [queue_of_fork hturn]
      exact List.mem_cons_self
    exact ⟨some ⟨s.nextTask⟩, hs.minds.fork run hw,
      hstation.imp_left fun hruns => .forking hruns hqueued⟩
  | minds task =>
    obtain ⟨c, rfl, hqueued⟩ := hminding.of_forking hturns.runs
    obtain ⟨rest, hq⟩ := List.head?_eq_some_iff.1 hturns.head
    cases run.input_of_head hq hqueued
    exact ⟨some task, hs.minds.quiet_turn run hturn fun _ _ => quiet_take,
      hstation.imp_left .listening⟩

/-- In every move the watcher keeps the worker that it minds, or goes on to another. -/
theorem Succession.move (hs : Succession s t minded) (run : Run h log s)
    (hw : WatchesLatest h log t) (hl : s.isLive t) (m : Move P) :
    ∃ minded', Succession (s.move h m) t minded' := by
  by_cases hactive : m = .step ∧ t ∈ s.active
  · obtain ⟨rfl, hactive⟩ := hactive
    by_cases hyield : ∃ effect, s.turn? h = some (t, .yield effect)
    · obtain ⟨effect, hturn⟩ := hyield
      exact hs.turn run hw hturn
    · refine ⟨minded, hs.minds.later (later_move s h .step) fun c hp => ?_, .inr (.inr ?_)⟩
      · refine (run.old_or_forked hw hp).resolve_right ?_
        rintro ⟨-, -, worker, args, hturn⟩
        exact hyield ⟨_, hturn⟩
      · intro u hu
        by_contra hp
        exact hyield (run.yielded hactive hu (Option.isSome_iff_ne_none.2 hp))
  · exact ⟨minded, hs.idle run hw hl fun hm hin => hactive ⟨hm, hin⟩⟩

/-- A watcher minds one worker at most, and all else that it has forked is being cancelled. -/
theorem Run.succession (run : Run h log s) (hw : WatchesLatest h log t) (hl : s.isLive t) :
    ∃ minded, Succession s t minded := by
  induction run with
  | new hs =>
    obtain rfl := eq_of_new hs
    cases hl
  | @move log s run m ih =>
    cases hold : s.isLive t with
    | true =>
      obtain ⟨minded, hs⟩ := ih hw.of_append hold
      exact hs.move run hw.of_append hold m
    | false =>
      obtain ⟨pattern, worker, args, hruns⟩ := hw (s, m) (by simp) (mem_arrivals h m hold hl)
      refine ⟨none, fun c hp _ => ?_, .inl (.listening hruns)⟩
      -- whoever is a child of the watcher was spawned after it
      rcases run.old_or_forked hw.of_append hp with hid | ⟨-, -, worker, args, hturn⟩
      · have hparent := (later_move s h m).parent?_eq hid hp
        simp [run.tidy.forest.isLive_parent hparent] at hold
      · obtain ⟨v, -, -, -, -, hv, -⟩ := turn_yield hturn
        simp [isLive_eq, hv] at hold

end Scheduler

end CoopTasks

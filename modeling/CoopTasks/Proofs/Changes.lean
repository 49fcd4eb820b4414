import CoopTasks.Proofs.Coherence.Effects
import Mathlib.Logic.Relation

/-!
# Single changes

Between two settlements a scheduler changes in small ways: a task turns to something else, an input
is queued, a task is signalled or spawned. Every operation but the settlement of a task and the
start of a group is a sequence of such changes, so what each of them keeps is kept by all
operations.
-/

namespace CoopTasks

namespace Effect

variable {P W : Type}

/-- The mode and the effects of a group, if the effect asks for one. -/
def group? : Effect P W → Option (GroupMode × List (Effect P W))
  | .all effects => some (.all, effects)
  | .race branches => some (.race (branches.map Prod.fst), branches.map Prod.snd)
  | _ => none

end Effect

namespace Task

variable {P R W : Type}

/-- What no change of a task takes away. Its process goes on, and ends, only on its own turn. -/
structure Steady (own : Prop) (t t' : Task P R W) : Prop where
  parent : t'.parent = t.parent
  role : t'.role = t.role
  abort : t'.abort = t.abort
  cancelling : t.cancelling = true → t'.cancelling = true
  process : own ∨ t'.process = t.process
  outcome : own ∨ t'.outcome = t.outcome

/-- A task turns to something else. It is not signalled, and does not enter a group. -/
structure Turns (own : Prop) (t t' : Task P R W) : Prop extends Steady own t t' where
  calm : t'.cancelling = t.cancelling
  group : ∀ g, t'.wait = .group g → t.wait = .group g

theorem Steady.refl (own : Prop) (t : Task P R W) : t.Steady own t :=
  ⟨rfl, rfl, rfl, id, Or.inr rfl, Or.inr rfl⟩

theorem Steady.trans {own : Prop} {t t' t'' : Task P R W} (h : t.Steady own t')
    (h' : t'.Steady own t'') : t.Steady own t'' := by
  refine ⟨h'.parent.trans h.parent, h'.role.trans h.role, h'.abort.trans h.abort,
    fun hc => h'.cancelling (h.cancelling hc), ?_, ?_⟩
  · rcases h.process with hown | hp
    · exact Or.inl hown
    · exact h'.process.imp id fun hp' => hp'.trans hp
  · rcases h.outcome with hown | ho
    · exact Or.inl hown
    · exact h'.outcome.imp id fun ho' => ho'.trans ho

/-- A task goes on to wait for something else than a group. -/
theorem turns_wait (own : Prop) (t : Task P R W) (wait : Wait) (status : Status)
    (hwait : ∀ g, wait ≠ .group g) : t.Turns own { t with wait, status } :=
  ⟨⟨rfl, rfl, rfl, id, Or.inr rfl, Or.inr rfl⟩, rfl, fun g hg => absurd hg (hwait g)⟩

theorem turns_joiners (own : Prop) (t : Task P R W) (joiners : List TaskId) :
    t.Turns own { t with joiners } :=
  ⟨⟨rfl, rfl, rfl, id, Or.inr rfl, Or.inr rfl⟩, rfl, fun _ hg => hg⟩

theorem turns_children (own : Prop) (t : Task P R W) (children : List TaskId) :
    t.Turns own { t with children } :=
  ⟨⟨rfl, rfl, rfl, id, Or.inr rfl, Or.inr rfl⟩, rfl, fun _ hg => hg⟩

end Task

namespace Scheduler

variable {P R W : Type} {s s' s'' : Scheduler P R W} {h : Host P R W}
variable {A : Set TaskId} {Q : Input → Prop}

/-- A single change. The tasks in `A` may go on with their processes, and what is queued for a task
is the signal that cancels it or an input that `Q` allows. -/
inductive Change (A : Set TaskId) (Q : Input → Prop) :
    Scheduler P R W → Scheduler P R W → Prop where
  | frame {s s' : Scheduler P R W} : s'.tasks = s.tasks → s'.queue = s.queue →
      s'.groups = s.groups → s'.settled = s.settled → s'.nextTask = s.nextTask →
      s'.nextGroup = s.nextGroup → Change A Q s s'
  | turn (s : Scheduler P R W) (id : TaskId) (f : Task P R W → Task P R W) :
      (∀ t : Task P R W, t.Turns (id ∈ A) (f t)) → Change A Q s (s.updateTask id f)
  | first (s : Scheduler P R W) (id : TaskId) {input : Input} : Q input →
      Change A Q s (s.enqueueFirst id input)
  | last (s : Scheduler P R W) (id : TaskId) {input : Input} : Q input →
      Change A Q s (s.enqueueLast id input)
  | signal (s : Scheduler P R W) (id : TaskId) : Change A Q s (s.signal id)
  | spawn (s : Scheduler P R W) (name : String) (parent : Option TaskId) {role : Role}
      (process : Process P R W) : s.task? ⟨s.nextTask⟩ = none → role.isBranch = false →
      Change A Q s (s.addTask name parent role process).2

/-- Several changes, one after the other. -/
abbrev Changes (A : Set TaskId) (Q : Input → Prop) :
    Scheduler P R W → Scheduler P R W → Prop :=
  Relation.ReflTransGen (Change A Q)

/-- The inputs that a step may queue: no signals, unless a settled task failed with one. -/
def plain (s : Scheduler P R W) (input : Input) : Prop :=
  input.isCancellation = false ∨ ∃ record ∈ s.settled, input = record.answer

/-! ## Operations as changes -/

theorem Changes.foldl {α : Type} (f : Scheduler P R W → α → Scheduler P R W)
    (hf : ∀ s a, Changes A Q s (f s a)) (as : List α) (s : Scheduler P R W) :
    Changes A Q s (as.foldl f s) :=
  List.foldlRecOn (motive := Changes A Q s) as f .refl fun r hr a _ => hr.trans (hf r a)

theorem changes_makeReady (s : Scheduler P R W) (id : TaskId) :
    Changes A Q s (s.makeReady id) :=
  .single (.turn s id _ fun t => t.turns_wait _ .nothing .running (by simp))

theorem changes_wakeFirst (s : Scheduler P R W) (id : TaskId) {input : Input}
    (hinput : Q input) : Changes A Q s (s.wakeFirst id input) :=
  (changes_makeReady s id).tail (.first _ id hinput)

theorem changes_wakeLast (s : Scheduler P R W) (id : TaskId) {input : Input}
    (hinput : Q input) : Changes A Q s (s.wakeLast id input) :=
  (changes_makeReady s id).tail (.last _ id hinput)

theorem changes_wakeIfWaiting (s : Scheduler P R W) (id : TaskId) (wait : Wait) {input : Input}
    (hinput : Q input) : Changes A Q s (s.wakeIfWaiting id wait input) := by
  unfold wakeIfWaiting
  split
  · exact changes_wakeFirst s id hinput
  · exact .refl

theorem changes_suspend (s : Scheduler P R W) (id : TaskId) (wait : Wait)
    (hwait : ∀ g, wait ≠ .group g) : Changes A Q s (s.suspend id wait) :=
  .single (.turn s id _ fun t => t.turns_wait _ wait .waiting hwait)

theorem changes_cancelSubtree (s : Scheduler P R W) (root : TaskId) :
    Changes A Q s (s.cancelSubtree root) :=
  .foldl _ (fun s id => .single (.signal s id)) _ s

theorem changes_cancelSubtrees (s : Scheduler P R W) (roots : List TaskId) :
    Changes A Q s (s.cancelSubtrees roots) :=
  .foldl _ changes_cancelSubtree _ s

theorem changes_answerJoiners (s : Scheduler P R W) (joiners : List TaskId) (record : Settlement)
    (hanswer : Q record.answer) : Changes A Q s (s.answerJoiners joiners record) :=
  .foldl _ (fun s joiner => changes_wakeIfWaiting s joiner _ hanswer) _ s

theorem changes_raiseOf (s : Scheduler P R W) (id : TaskId) (outcome : Outcome) :
    Changes A Q s (s.raiseOf id outcome) := by
  unfold raiseOf
  split
  · exact .single (.frame rfl rfl rfl rfl rfl rfl)
  · exact .refl

theorem changes_note (s : Scheduler P R W) (h : Host P R W) (id : TaskId) (effect : Effect P W) :
    Changes A Q s (s.note h id effect) := by
  unfold note
  split
  · exact .single (.frame rfl rfl rfl rfl rfl rfl)
  · exact .refl

theorem changes_takeFault (s : Scheduler P R W) : Changes A Q s s.takeFault.2 := by
  unfold takeFault
  split
  · exact .refl
  · exact .single (.frame rfl rfl rfl rfl rfl rfl)

theorem changes_publish (s : Scheduler P R W) (h : Host P R W) (n : Notification) :
    Changes A Q s (s.publish h n).2 :=
  .single (.frame rfl rfl rfl rfl rfl rfl)

theorem changes_setChannel (s : Scheduler P R W) (id : ChannelId) (c : Channel) :
    Changes A Q s (s.setChannel id c) :=
  .single (.frame rfl rfl rfl rfl rfl rfl)

theorem changes_take (s : Scheduler P R W) (id : TaskId) (pattern : Pattern) :
    Changes A Q s ({ s with takers := s.takers ++ [(id, pattern)] }.suspend id .take) := by
  refine .trans ?_ (changes_suspend _ id .take (by simp))
  exact .single (.frame rfl rfl rfl rfl rfl rfl)

theorem changes_spawn (s : Scheduler P R W) (hfresh : s.task? ⟨s.nextTask⟩ = none)
    (h : Host P R W) (process : P) (args : List Value) (parent : Option TaskId) {role : Role}
    (hrole : role.isBranch = false) :
    Changes A Q s (s.spawn h process args parent role).2 := by
  unfold spawn
  obtain ⟨started, world⟩ := h.program.spawn process args s.world
  have hworld : Change A Q s { s with world } := .frame rfl rfl rfl rfl rfl rfl
  exact .tail (.single hworld) (.spawn { s with world } _ parent started hfresh hrole)

/-- The task whose turn it is goes on, or ends. -/
theorem changes_storeProcess (s : Scheduler P R W) {id : TaskId} (hid : id ∈ A)
    (process : Process P R W) : Changes A Q s (s.storeProcess id process) :=
  .single (.turn s id _ fun _ =>
    ⟨⟨rfl, rfl, rfl, fun hc => hc, Or.inl hid, Or.inl hid⟩, rfl, by simp⟩)

theorem changes_endProcess (s : Scheduler P R W) {id : TaskId} (hid : id ∈ A)
    (outcome : Outcome) : Changes A Q s (s.endProcess id outcome) :=
  .single (.turn s id _ fun _ =>
    ⟨⟨rfl, rfl, rfl, fun hc => hc, Or.inl hid, Or.inl hid⟩, rfl, by simp⟩)

section Effects

variable (hplain : ∀ input : Input, input.isCancellation = false → Q input)
include hplain

theorem changes_answer (s : Scheduler P R W) (id : TaskId) (v : Value) :
    Changes A Q s (s.answer id v) :=
  changes_wakeFirst s id (hplain _ rfl)

theorem changes_wakeAll (s : Scheduler P R W) (ids : List TaskId) (v : Value) :
    Changes A Q s (s.wakeAll ids v) :=
  .foldl _ (fun s id => changes_answer hplain s id v) _ s

theorem changes_call (s : Scheduler P R W) (id : TaskId) (operation : Operation W)
    (args : List Value) : Changes A Q s (s.call id operation args) := by
  unfold call
  obtain ⟨outcome, pending, world⟩ := s.pending.carryOut id (operation.invoke args id s.world)
  have hframe : Change A Q s { s with pending, world } := .frame rfl rfl rfl rfl rfl rfl
  refine .head hframe ?_
  cases outcome with
  | answered result =>
    cases result with
    | ok v => exact changes_wakeFirst _ id (hplain _ rfl)
    | error failure => exact changes_wakeFirst _ id (hplain _ rfl)
  | awaiting op => exact changes_suspend _ id _ (by simp)

theorem changes_callProcess (s : Scheduler P R W) (hfresh : s.task? ⟨s.nextTask⟩ = none)
    (h : Host P R W) (id : TaskId) (process : P) (args : List Value) :
    Changes A Q s (s.callProcess h id process args) :=
  ((changes_spawn s hfresh h process args (some id) rfl).trans
    (changes_suspend _ id _ (by simp))).tail (.first _ _ (hplain _ rfl))

theorem changes_fork (s : Scheduler P R W) (hfresh : s.task? ⟨s.nextTask⟩ = none)
    (h : Host P R W) (id : TaskId) (process : P) (args : List Value) :
    Changes A Q s (s.fork h id process args) :=
  ((changes_spawn s hfresh h process args (some (s.forkOwner id)) rfl).tail
    (.last _ _ (hplain _ rfl))).trans (changes_answer hplain _ id _)

theorem changes_put (s : Scheduler P R W) (h : Host P R W) (id : TaskId) (n : Notification) :
    Changes A Q s (s.put h id n) :=
  (changes_publish s h n).trans
    ((changes_answer hplain _ id _).trans (changes_wakeAll hplain _ _ _))

theorem changes_join {id target : TaskId} (hkept : ∀ record ∈ s.settled, Q record.answer)
    (hs : s.join id target = .ok s') : Changes A Q s s' := by
  unfold join at hs
  split at hs
  · cases hs
    exact .head (.turn s target _ fun t => t.turns_joiners _ _) (changes_suspend _ id _ (by simp))
  · split at hs
    · rename_i record hrecord
      cases hs
      exact changes_wakeFirst s id (hkept record (List.mem_of_find?_eq_some hrecord))
    · split at hs
      · cases hs
        exact changes_wakeFirst s id (hplain _ rfl)
      · cases hs

theorem changes_cancel {id target : TaskId} (hs : s.cancel id target = .ok s') :
    Changes A Q s s' := by
  unfold cancel at hs
  split at hs
  · split at hs
    · cases hs
      exact changes_cancelSubtree s target
    · cases hs
      exact (changes_answer hplain s id _).trans (changes_cancelSubtree _ target)
  · split at hs
    · cases hs
      exact changes_answer hplain s id _
    · cases hs

theorem changes_channelTake {id : TaskId} {channel : ChannelId}
    (hs : s.channelTake id channel = .ok s') : Changes A Q s s' := by
  have hanswer := fun (s : Scheduler P R W) id v => changes_answer (A := A) hplain s id v
  unfold channelTake at hs
  split at hs
  · cases hs
  · have hset := fun c => changes_setChannel (A := A) (Q := Q) s channel c
    split at hs <;> cases hs
    · exact (hset _).trans ((hanswer _ _ _).trans (hanswer _ _ _))
    · exact (hset _).trans (hanswer _ _ _)
    · exact (hset _).trans (changes_suspend _ _ _ (by simp))
    · exact (hset _).trans (hanswer _ _ _)

theorem changes_channelPut {id : TaskId} {channel : ChannelId} {v : Value}
    (hs : s.channelPut id channel v = .ok s') : Changes A Q s s' := by
  have hanswer := fun (s : Scheduler P R W) id v => changes_answer (A := A) hplain s id v
  unfold channelPut at hs
  split at hs
  · cases hs
  · have hset := fun c => changes_setChannel (A := A) (Q := Q) s channel c
    split at hs <;> cases hs
    · exact (hset _).trans ((hanswer _ _ _).trans (hanswer _ _ _))
    · exact (hset _).trans (hanswer _ _ _)
    · exact (hset _).trans (hanswer _ _ _)
    · exact (hset _).trans (changes_suspend _ _ _ (by simp))
    · exact (hset _).trans (changes_wakeFirst _ _ (hplain _ rfl))

theorem changes_channelClose {id : TaskId} {channel : ChannelId}
    (hs : s.channelClose id channel = .ok s') : Changes A Q s s' := by
  unfold channelClose at hs
  split at hs
  · cases hs
  · cases hs
    exact (changes_setChannel s channel _).trans ((changes_answer hplain _ _ _).trans
      ((changes_wakeAll hplain _ _ _).trans (changes_wakeAll hplain _ _ _)))

theorem changes_openChannel (s : Scheduler P R W) (id : TaskId) (policy : Buffering) :
    Changes A Q s (s.openChannel id policy) := by
  refine .trans ?_ (changes_answer hplain _ id _)
  exact .single (.frame rfl rfl rfl rfl rfl rfl)

/-- An effect is a sequence of changes, or it starts a group. -/
theorem changes_carryOut {id : TaskId} {effect : Effect P W}
    (hkept : ∀ record ∈ s.settled, Q record.answer) (hfresh : s.task? ⟨s.nextTask⟩ = none)
    (hs : s.carryOut h id effect = .ok s') :
    Changes A Q s s' ∨ ∃ mode effects, effect.group? = some (mode, effects) ∧ effects ≠ [] ∧
      s' = s.startGroup id mode effects := by
  have hgroup : ∀ mode effects, effect.group? = some (mode, effects) →
      s' = s.startGroup id mode effects → Changes A Q s s' ∨ ∃ mode effects,
        effect.group? = some (mode, effects) ∧ effects ≠ [] ∧
          s' = s.startGroup id mode effects := by
    intro mode effects heffect hstart
    cases effects with
    | nil =>
      left
      rw [hstart]
      exact changes_answer hplain s id _
    | cons first rest => exact Or.inr ⟨mode, _, heffect, by simp, hstart⟩
  cases effect with
  | call operation args => cases hs; exact Or.inl (changes_call hplain ..)
  | callProcess process args => cases hs; exact Or.inl (changes_callProcess hplain s hfresh ..)
  | put n => cases hs; exact Or.inl (changes_put hplain ..)
  | take pattern =>
    cases pattern with
    | channel channel => exact Or.inl (changes_channelTake hplain hs)
    | _ => cases hs; exact Or.inl (changes_take ..)
  | fork process args => cases hs; exact Or.inl (changes_fork hplain s hfresh ..)
  | join target => exact Or.inl (changes_join hplain hkept hs)
  | cancel target => exact Or.inl (changes_cancel hplain hs)
  | cancelled => cases hs; exact Or.inl (changes_answer hplain ..)
  | all effects => cases hs; exact hgroup _ _ rfl rfl
  | race branches => cases hs; exact hgroup _ _ rfl rfl
  | channel policy => cases hs; exact Or.inl (changes_openChannel hplain ..)
  | channelTake channel => exact Or.inl (changes_channelTake hplain hs)
  | channelPut channel v => exact Or.inl (changes_channelPut hplain hs)
  | channelClose channel => exact Or.inl (changes_channelClose hplain hs)
  | select selector => cases hs; exact Or.inl (changes_answer hplain ..)

theorem changes_applyCompletion (s : Scheduler P R W) (c : Completion) :
    Changes A Q s (s.applyCompletion c).2 := by
  have hdiscard : Change A Q s { s with pending := s.pending.discard c.operation } :=
    .frame rfl rfl rfl rfl rfl rfl
  unfold applyCompletion
  split
  · dsimp only
    split
    · refine .head hdiscard (changes_wakeLast _ _ (hplain _ ?_))
      cases c.result <;> rfl
    · exact .single hdiscard
  · split
    · exact .refl
    · exact .refl

theorem changes_announce (s : Scheduler P R W) (h : Host P R W) (n : Notification) :
    Changes A Q s (s.announce h n) :=
  (changes_publish s h n).trans
    (Changes.foldl _ (fun s id => changes_wakeLast s id (hplain _ rfl)) _ _)

theorem changes_enroll (s : Scheduler P R W) (hfresh : s.task? ⟨s.nextTask⟩ = none)
    (h : Host P R W) (process : P) (args : List Value) :
    Changes A Q s (s.enroll h process args).2 :=
  (changes_spawn s hfresh h process args none rfl).tail (.last _ _ (hplain _ rfl))

/-- Every move but a step is a sequence of changes. -/
theorem changes_move (s : Scheduler P R W) (hfresh : s.task? ⟨s.nextTask⟩ = none)
    (h : Host P R W) {m : Move P} (hm : m ≠ .step) : Changes A Q s (s.move h m) := by
  cases m with
  | step => exact absurd rfl hm
  | enroll process args => exact changes_enroll hplain s hfresh h process args
  | announce n => exact changes_announce hplain s h n
  | deliver c => exact changes_applyCompletion hplain s c
  | receive =>
    simp only [move]
    split
    · exact .refl
    · refine .trans ?_ (changes_applyCompletion hplain _ _)
      exact .single (.frame rfl rfl rfl rfl rfl rfl)
  | cancel id => exact changes_cancelSubtree s id
  | _ => exact .single (.frame rfl rfl rfl rfl rfl rfl)

end Effects

/-! ## What changes keep -/

/-- Tasks stay what they are, and none that is new is torn down. -/
structure Steady (A : Set TaskId) (s s' : Scheduler P R W) : Prop where
  next : s.nextTask ≤ s'.nextTask
  numbers : ∀ n, s.nextTask ≤ n → n < s'.nextTask → s'.isLive ⟨n⟩
  stays : ∀ id t, s.task? id = some t → ∃ t', s'.task? id = some t' ∧ t.Steady (id ∈ A) t'
  came : ∀ id t', s'.task? id = some t' → s.task? id = none →
    s.nextTask ≤ id.val ∧ t'.abort = none

/-- Besides, no group is new, and one that is gone had its owner signalled. -/
structure Changed (A : Set TaskId) (s s' : Scheduler P R W) : Prop extends Steady A s s' where
  settled : s'.settled = s.settled
  nextGroup : s'.nextGroup = s.nextGroup
  groups : ∀ g group, s'.groups.find? g = some group → s.groups.find? g = some group
  waits : ∀ id g, s'.wait? id = some (.group g) → s.wait? id = some (.group g)
  dropped : ∀ g group, s.groups.find? g = some group → s'.groups.find? g = none →
    ∃ id, s.wait? id = some (.group g) ∧ s.beingCancelled id = false ∧
      s'.beingCancelled id = true
  newcomers : ∀ id t', s'.task? id = some t' → s.task? id = none → t'.role.isBranch = false

theorem Steady.isLive (hs : Steady A s s') {id : TaskId} (hl : s.isLive id) : s'.isLive id := by
  obtain ⟨t, ht⟩ := Option.isSome_iff_exists.1 hl
  obtain ⟨t', ht', -⟩ := hs.stays id t ht
  simp [isLive_eq, ht']

theorem Steady.refl (A : Set TaskId) (s : Scheduler P R W) : Steady A s s :=
  ⟨Nat.le_refl _, fun _ hle hlt => absurd hlt (Nat.not_lt.2 hle), fun _ t ht => ⟨t, ht, .refl _ t⟩,
    fun _ t ht hnone => by rw [ht] at hnone; cases hnone⟩

theorem Steady.trans (hs : Steady A s s') (hs' : Steady A s' s'') : Steady A s s'' := by
  refine ⟨Nat.le_trans hs.next hs'.next, fun n hle hlt => ?_, fun id t ht => ?_,
    fun id t'' ht'' hnone => ?_⟩
  · by_cases hn : n < s'.nextTask
    · exact hs'.isLive (hs.numbers n hle hn)
    · exact hs'.numbers n (Nat.not_lt.1 hn) hlt
  · obtain ⟨t', ht', h⟩ := hs.stays id t ht
    obtain ⟨t'', ht'', h'⟩ := hs'.stays id t' ht'
    exact ⟨t'', ht'', h.trans h'⟩
  · cases ht' : s'.task? id with
    | none =>
      obtain ⟨hle, habort⟩ := hs'.came id t'' ht'' ht'
      exact ⟨Nat.le_trans hs.next hle, habort⟩
    | some t' =>
      obtain ⟨hle, habort⟩ := hs.came id t' ht' hnone
      obtain ⟨u, hu, h⟩ := hs'.stays id t' ht'
      obtain rfl := Option.some.inj (ht''.symm.trans hu)
      exact ⟨hle, h.abort.trans habort⟩

theorem Steady.beingCancelled (hs : Steady A s s') {id : TaskId} (hc : s.beingCancelled id) :
    s'.beingCancelled id := by
  unfold Scheduler.beingCancelled at hc
  rw [Option.any_eq_true] at hc
  obtain ⟨t, ht, hcancel⟩ := hc
  obtain ⟨t', ht', h⟩ := hs.stays id t ht
  rw [beingCancelled_eq ht']
  exact h.cancelling hcancel

theorem Steady.of_tasks (htasks : s'.tasks = s.tasks) (hnext : s'.nextTask = s.nextTask) :
    Steady A s s' := by
  refine ⟨Nat.le_of_eq hnext.symm, fun n hle hlt => ?_, fun id t ht => ⟨t, ?_, .refl _ t⟩,
    fun id t ht hnone => ?_⟩
  · omega
  · rwa [task?_of_tasks htasks]
  · rw [task?_of_tasks htasks, hnone] at ht
    cases ht

theorem steady_updateTask (s : Scheduler P R W) (id : TaskId) (f : Task P R W → Task P R W)
    (hf : ∀ t : Task P R W, t.Steady (id ∈ A) (f t)) : Steady A s (s.updateTask id f) := by
  refine ⟨Nat.le_refl _, fun n hle hlt => absurd hlt (Nat.not_lt.2 hle), fun j t ht => ?_,
    fun j t ht hnone => ?_⟩
  · by_cases hj : j = id
    · exact ⟨f t, by simp [← hj, ht], hj ▸ hf t⟩
    · exact ⟨t, by simpa [hj] using ht, .refl _ t⟩
  · simp [hnone] at ht

theorem steady_addTask (s : Scheduler P R W) (hfresh : s.task? ⟨s.nextTask⟩ = none)
    (name : String) (parent : Option TaskId) (role : Role) (process : Process P R W) :
    Steady A s (s.addTask name parent role process).2 := by
  have hnext : (s.addTask name parent role process).2.nextTask = s.nextTask + 1 :=
    nextTask_addTask ..
  refine ⟨by omega, fun n hle hlt => ?_, fun j t ht => ?_, fun j t ht hnone => ?_⟩
  · obtain rfl : n = s.nextTask := by omega
    rw [isLive_addTask]
    simp
  · have hne : j ≠ ⟨s.nextTask⟩ := by
      rintro rfl
      rw [hfresh] at ht
      cases ht
    rw [task?_addTask, if_neg hne, task?_addChild, ht]
    split
    · exact ⟨_, rfl, (t.turns_children _ _).toSteady⟩
    · exact ⟨t, rfl, .refl _ t⟩
  · rw [task?_addTask, task?_addChild, hnone] at ht
    split at ht
    · rename_i hj
      cases ht
      exact ⟨by rw [hj], rfl⟩
    · simp at ht

theorem steady_withdraw (s : Scheduler P R W) (id : TaskId) (wait : Wait) :
    Steady A s (s.withdraw id wait) := by
  cases wait with
  | join target => exact steady_updateTask s target _ fun t => (t.turns_joiners _ _).toSteady
  | _ => exact .of_tasks rfl rfl

theorem steady_mark (s : Scheduler P R W) (id : TaskId) (t : Task P R W) (wait : Wait) :
    Steady A s (s.mark id t wait) := by
  have hflag : Steady A s (s.updateTask id fun t => { t with cancelling := true, wait }) :=
    steady_updateTask s id _ fun t => ⟨rfl, rfl, rfl, fun _ => rfl, Or.inr rfl, Or.inr rfl⟩
  exact (hflag.trans (steady_withdraw _ id t.wait)).trans (.of_tasks rfl rfl)

/-- A signal does nothing, or it marks a task that is not being cancelled. -/
theorem signal_cases (s : Scheduler P R W) (id : TaskId) :
    s.signal id = s ∨ ∃ t wait, s.task? id = some t ∧ t.cancelling = false ∧
      (∀ g, wait ≠ .group g) ∧ (s.signal id = s.mark id t wait ∨
        s.signal id = (s.mark id t wait).enqueueFirst id (.error (.cancelled id))) := by
  unfold signal
  cases ht : s.task? id with
  | none => exact Or.inl rfl
  | some t =>
    cases hc : t.cancelling with
    | true => exact Or.inl (by simp [hc])
    | false =>
      right
      cases hp : t.process with
      | none => exact ⟨t, .children, rfl, hc, by simp, Or.inl (by simp [hc, hp])⟩
      | some process => exact ⟨t, .nothing, rfl, hc, by simp, Or.inr (by simp [hc, hp])⟩

theorem queue_withdraw (s : Scheduler P R W) (id : TaskId) (wait : Wait) :
    (s.withdraw id wait).queue = s.queue := by
  cases wait <;> rfl

theorem queue_mark (s : Scheduler P R W) (id : TaskId) (t : Task P R W) (wait : Wait) :
    (s.mark id t wait).queue = s.queue.filter (·.1 ≠ id) :=
  congrArg (List.filter _) (queue_withdraw _ id t.wait)

theorem beingCancelled_mark {id : TaskId} {t : Task P R W} (ht : s.task? id = some t)
    (wait : Wait) : (s.mark id t wait).beingCancelled id = true := by
  have hflag : (s.updateTask id fun t => { t with cancelling := true, wait }).beingCancelled id :=
    beingCancelled_eq (t := { t with cancelling := true, wait }) (by simp [ht])
  exact (steady_withdraw (A := ∅) _ id t.wait).beingCancelled hflag

theorem groups_mark (s : Scheduler P R W) (id : TaskId) (t : Task P R W) (wait : Wait)
    (g : GroupId) :
    (s.mark id t wait).groups.find? g = if t.wait = .group g then none else s.groups.find? g := by
  cases hw : t.wait <;> simp [mark, hw, withdraw, unqueue, updateTask, eq_comm]

theorem nextGroup_mark (s : Scheduler P R W) (id : TaskId) (t : Task P R W) (wait : Wait) :
    (s.mark id t wait).nextGroup = s.nextGroup := by
  cases hw : t.wait <;> simp [mark, hw, withdraw, unqueue, updateTask]

theorem wait?_withdraw (s : Scheduler P R W) (id j : TaskId) (wait : Wait) :
    (s.withdraw id wait).wait? j = s.wait? j := by
  have hs := congrArg (Option.map fun stance => stance.2.1) (stance_withdraw s id j wait)
  simpa [wait?, Task.stance, Function.comp_def] using hs

theorem wait?_mark_of_ne (s : Scheduler P R W) {id j : TaskId} (hj : j ≠ id) (t : Task P R W)
    (wait : Wait) : (s.mark id t wait).wait? j = s.wait? j := by
  have hmark : (s.mark id t wait).wait? j =
      ((s.updateTask id fun t => { t with cancelling := true, wait }).withdraw id t.wait).wait? j :=
    rfl
  rw [hmark, wait?_withdraw, wait?_updateTask _ _ _ _ hj]

theorem Changed.of_tables (htasks : s'.tasks = s.tasks) (hgroups : s'.groups = s.groups)
    (hsettled : s'.settled = s.settled) (hnext : s'.nextTask = s.nextTask)
    (hnextGroup : s'.nextGroup = s.nextGroup) : Changed A s s' := by
  refine ⟨.of_tasks htasks hnext, hsettled, hnextGroup, fun g group hg => hgroups ▸ hg,
    fun id g hw => ?_, fun g group hg hnone => ?_, fun id t ht hnone => ?_⟩
  · rwa [wait?, task?_of_tasks htasks] at hw
  · rw [hgroups, hg] at hnone
    cases hnone
  · rw [task?_of_tasks htasks, hnone] at ht
    cases ht

theorem Changed.refl (A : Set TaskId) (s : Scheduler P R W) : Changed A s s :=
  .of_tables rfl rfl rfl rfl rfl

theorem Changed.trans (hs : Changed A s s') (hs' : Changed A s' s'') : Changed A s s'' := by
  refine ⟨hs.toSteady.trans hs'.toSteady, hs'.settled.trans hs.settled,
    hs'.nextGroup.trans hs.nextGroup, fun g group hg => hs.groups g group (hs'.groups g group hg),
    fun id g hw => hs.waits id g (hs'.waits id g hw), fun g group hg hnone => ?_,
    fun id t'' ht'' hnone => ?_⟩
  · cases hg' : s'.groups.find? g with
    | none =>
      obtain ⟨id, hwait, hcalm, hcancel⟩ := hs.dropped g group hg hg'
      exact ⟨id, hwait, hcalm, hs'.beingCancelled hcancel⟩
    | some group' =>
      obtain ⟨id, hwait, hcalm, hcancel⟩ := hs'.dropped g group' hg' hnone
      refine ⟨id, hs.waits id g hwait, ?_, hcancel⟩
      cases hc : s.beingCancelled id with
      | false => rfl
      | true => rw [hs.beingCancelled hc] at hcalm; cases hcalm
  · cases ht' : s'.task? id with
    | none => exact hs'.newcomers id t'' ht'' ht'
    | some t' =>
      obtain ⟨u, hu, h⟩ := hs'.stays id t' ht'
      obtain rfl := Option.some.inj (ht''.symm.trans hu)
      rw [h.role]
      exact hs.newcomers id t' ht' hnone

theorem changed_updateTask (s : Scheduler P R W) (id : TaskId) (f : Task P R W → Task P R W)
    (hf : ∀ t : Task P R W, t.Turns (id ∈ A) (f t)) : Changed A s (s.updateTask id f) := by
  refine ⟨steady_updateTask s id f fun t => (hf t).toSteady, rfl, rfl, fun _ _ hg => hg,
    fun j g hw => ?_, fun g group hg hnone => ?_, fun j t ht hnone => ?_⟩
  · by_cases hj : j = id
    · obtain ⟨t, ht, hwait⟩ : ∃ t, s.task? j = some t ∧ (f t).wait = .group g := by
        simpa [wait?, hj] using hw
      simp [wait?, ht, (hf t).group g hwait]
    · rwa [wait?_updateTask _ _ _ _ hj] at hw
  · rw [show (s.updateTask id f).groups = s.groups from rfl, hg] at hnone
    cases hnone
  · simp [hnone] at ht

theorem changed_mark {id : TaskId} {t : Task P R W} (ht : s.task? id = some t)
    (hcalm : t.cancelling = false) {wait : Wait} (hwait : ∀ g, wait ≠ .group g) :
    Changed A s (s.mark id t wait) := by
  refine ⟨steady_mark s id t wait, settled_mark .., nextGroup_mark .., fun g group hg => ?_,
    fun j g hw => ?_, fun g group hg hnone => ?_, fun j u hu hnone => ?_⟩
  · rw [groups_mark] at hg
    split at hg
    · cases hg
    · exact hg
  · by_cases hj : j = id
    · rw [hj, wait?_mark ht] at hw
      exact absurd (Option.some.inj hw) (hwait g)
    · rwa [wait?_mark_of_ne s hj] at hw
  · rw [groups_mark] at hnone
    split at hnone
    · rename_i hw
      exact ⟨id, by simp [wait?, ht, hw], by rw [beingCancelled_eq ht, hcalm],
        beingCancelled_mark ht wait⟩
    · rw [hg] at hnone
      cases hnone
  · have hlive := (sameTree_mark s id t wait).isLive j
    simp [isLive_eq, hu, hnone] at hlive

theorem changed_signal (s : Scheduler P R W) (id : TaskId) : Changed A s (s.signal id) := by
  rcases signal_cases s id with heq | ⟨t, wait, ht, hcalm, hwait, heq | heq⟩ <;> rw [heq]
  · exact .refl A s
  · exact changed_mark ht hcalm hwait
  · exact (changed_mark ht hcalm hwait).trans (.of_tables rfl rfl rfl rfl rfl)

theorem changed_addTask (s : Scheduler P R W) (hfresh : s.task? ⟨s.nextTask⟩ = none)
    (name : String) (parent : Option TaskId) {role : Role} (process : Process P R W)
    (hrole : role.isBranch = false) : Changed A s (s.addTask name parent role process).2 := by
  have hgroups : (s.addTask name parent role process).2.groups = s.groups := by
    cases parent <;> rfl
  refine ⟨steady_addTask s hfresh .., by cases parent <;> rfl, by cases parent <;> rfl,
    fun g group hg => hgroups ▸ hg, fun j g hw => ?_, fun g group hg hnone => ?_,
    fun j t ht hnone => ?_⟩
  · rw [wait?, task?_addTask] at hw
    split at hw
    · cases hw
    · rename_i hj
      have hs := congrArg (Option.map fun stance => stance.2.1)
        (stance_addTask s name parent role process hj)
      rw [task?_addTask, if_neg hj] at hs
      rw [wait?, ← hw]
      simpa [Task.stance, Function.comp_def] using hs.symm
  · rw [hgroups, hg] at hnone
    cases hnone
  · rw [task?_addTask, task?_addChild, hnone] at ht
    split at ht
    · cases ht
      exact hrole
    · simp at ht

theorem Change.changed (hs : Change A Q s s') : Changed A s s' := by
  cases hs with
  | frame htasks hqueue hgroups hsettled hnext hnextGroup =>
    exact .of_tables htasks hgroups hsettled hnext hnextGroup
  | turn id f hf => exact changed_updateTask s id f hf
  | first id hinput => exact .of_tables rfl rfl rfl rfl rfl
  | last id hinput => exact .of_tables rfl rfl rfl rfl rfl
  | signal id => exact changed_signal s id
  | spawn name parent process hfresh hrole =>
    exact changed_addTask s hfresh name parent process hrole

theorem Changes.changed (hs : Changes A Q s s') : Changed A s s' := by
  induction hs with
  | refl => exact .refl A s
  | tail _ hlast ih => exact ih.trans hlast.changed

/-- The start of a group adds tasks, and keeps those that are there. -/
theorem steady_addBranches (owner : TaskId) (group : GroupId) (mode : GroupMode) (slot : Nat)
    (effects : List (Effect P W)) (s : Scheduler P R W) (ht : Tidy s) (hl : s.isLive owner) :
    Steady A s (s.addBranches owner group mode slot effects).2 := by
  induction effects generalizing slot s with
  | nil => exact .refl A s
  | cons effect rest ih =>
    have htidy : Tidy (s.addTask (mode.label slot) (some owner) (.branch group slot)
        (.script [effect])).2 := ht.addTask _ _ _ fun p hp => by cases hp; exact hl
    have hadd : Steady A s (s.addTask (mode.label slot) (some owner) (.branch group slot)
        (.script [effect])).2 := steady_addTask s ht.forest.fresh_task _ _ _ _
    exact hadd.trans (ih (slot + 1) _ htidy (hadd.isLive hl))

theorem steady_startGroup (ht : Tidy s) {id : TaskId} (hl : s.isLive id) (mode : GroupMode)
    (effects : List (Effect P W)) : Steady A s (s.startGroup id mode effects) := by
  unfold startGroup
  split
  · exact (changes_answer (Q := s.plain) (fun _ => Or.inl) s id _).changed.toSteady
  · have hnext : Steady A s { s with nextGroup := s.nextGroup + 1 } := .of_tasks rfl rfl
    have htidy : Tidy { s with nextGroup := s.nextGroup + 1 } := ht.congr (.of_tasks rfl rfl)
    have hbranches := steady_addBranches (A := A) id ⟨s.nextGroup⟩ mode 0 effects _ htidy hl
    have hsuspend : ∀ r : Scheduler P R W, Steady A r (r.suspend id (.group ⟨s.nextGroup⟩)) :=
      fun r => steady_updateTask r id _ fun t => ⟨rfl, rfl, rfl, fun hc => hc, Or.inr rfl, Or.inr rfl⟩
    exact ((hnext.trans hbranches).trans (hsuspend _)).trans (.of_tasks rfl rfl)

/-! ## The queue -/

/-- What a single change queues for a task is allowed, or its signal. -/
theorem Change.mem_queue (hs : Change A Q s s') {id : TaskId} {input : Input}
    (hm : (id, input) ∈ s'.queue) :
    (id, input) ∈ s.queue ∨ Q input ∨
      input = .error (.cancelled id) ∧ s.beingCancelled id = false ∧
        s'.beingCancelled id = true := by
  cases hs with
  | frame htasks hqueue => exact Or.inl (hqueue ▸ hm)
  | turn j f hf => exact Or.inl hm
  | first j hinput =>
    rcases List.mem_cons.1 hm with he | hm
    · cases he
      exact Or.inr (Or.inl hinput)
    · exact Or.inl hm
  | last j hinput =>
    rcases List.mem_append.1 hm with hm | hm
    · exact Or.inl hm
    · cases List.mem_singleton.1 hm
      exact Or.inr (Or.inl hinput)
  | signal j =>
    have hold : ∀ t wait, (id, input) ∈ (s.mark j t wait).queue → (id, input) ∈ s.queue := by
      intro t wait hm
      rw [queue_mark] at hm
      exact (List.mem_filter.1 hm).1
    rcases signal_cases s j with heq | ⟨t, wait, ht, hcalm, -, heq | heq⟩ <;> rw [heq] at hm ⊢
    · exact Or.inl hm
    · exact Or.inl (hold t wait hm)
    · rcases List.mem_cons.1 hm with he | hm
      · cases he
        refine Or.inr (Or.inr ⟨rfl, by rw [beingCancelled_eq ht, hcalm], ?_⟩)
        exact beingCancelled_mark ht wait
      · exact Or.inl (hold t wait hm)
  | spawn name parent process hfresh hrole =>
    left
    cases parent <;> exact hm

theorem Changes.mem_queue (hs : Changes A Q s s') {id : TaskId} {input : Input}
    (hm : (id, input) ∈ s'.queue) :
    (id, input) ∈ s.queue ∨ Q input ∨
      input = .error (.cancelled id) ∧ s.beingCancelled id = false ∧
        s'.beingCancelled id = true := by
  induction hs with
  | refl => exact Or.inl hm
  | @tail r r' hfirst hlast ih =>
    rcases hlast.mem_queue hm with hm | hinput | ⟨he, hcalm, hcancel⟩
    · rcases ih hm with hm | hinput | ⟨he, hcalm, hcancel⟩
      · exact Or.inl hm
      · exact Or.inr (Or.inl hinput)
      · exact Or.inr (Or.inr ⟨he, hcalm, hlast.changed.beingCancelled hcancel⟩)
    · exact Or.inr (Or.inl hinput)
    · refine Or.inr (Or.inr ⟨he, ?_, hcancel⟩)
      cases hc : s.beingCancelled id with
      | false => rfl
      | true => rw [Changes.changed hfirst |>.beingCancelled hc] at hcalm; cases hcalm

/-- What is queued stays queued in its order, as long as the tasks it is for are not signalled. -/
theorem Change.sublist_queue (hs : Change A Q s s') {entries : List (TaskId × Input)}
    (hqueue : entries.Sublist s.queue)
    (hcalm : ∀ entry ∈ entries, s'.beingCancelled entry.1 = s.beingCancelled entry.1) :
    entries.Sublist s'.queue := by
  cases hs with
  | frame htasks heq => rwa [heq]
  | turn j f hf => exact hqueue
  | first j hinput => exact hqueue.trans (List.sublist_cons_self _ _)
  | last j hinput => exact hqueue.trans (List.sublist_append_left _ _)
  | signal j =>
    rcases signal_cases s j with heq | ⟨t, wait, ht, hcalm', -, heq⟩
    · rwa [heq]
    · have hne : ∀ entry ∈ entries, entry.1 ≠ j := by
        rintro entry he rfl
        have hmarked := beingCancelled_mark ht wait
        have hsame := hcalm entry he
        have hafter : (s.signal entry.1).beingCancelled entry.1 = true := by
          rcases heq with heq | heq <;> rw [heq] <;> exact hmarked
        rw [hafter, beingCancelled_eq ht, hcalm'] at hsame
        cases hsame
      have hkept : entries.Sublist (s.mark j t wait).queue := by
        have hself : entries.filter (·.1 ≠ j) = entries :=
          List.filter_eq_self.2 fun entry he => by simpa using hne entry he
        rw [queue_mark, ← hself]
        exact hqueue.filter _
      rcases heq with heq | heq <;> rw [heq]
      · exact hkept
      · exact hkept.trans (List.sublist_cons_self _ _)
  | spawn name parent process hfresh hrole => cases parent <;> exact hqueue

/-- A task that is signalled at neither end is not signalled in the middle. -/
theorem Steady.between (hs : Steady A s s') (hs' : Steady A s' s'') {id : TaskId}
    (hends : s''.beingCancelled id = s.beingCancelled id) :
    s'.beingCancelled id = s.beingCancelled id := by
  cases hc : s.beingCancelled id with
  | true => exact hs.beingCancelled hc
  | false =>
    cases hr : s'.beingCancelled id with
    | false => rfl
    | true => rw [hs'.beingCancelled hr, hc] at hends; cases hends

theorem Changes.sublist_queue (hs : Changes A Q s s') {entries : List (TaskId × Input)}
    (hqueue : entries.Sublist s.queue)
    (hcalm : ∀ entry ∈ entries, s'.beingCancelled entry.1 = s.beingCancelled entry.1) :
    entries.Sublist s'.queue := by
  induction hs with
  | refl => exact hqueue
  | tail hfirst hlast ih =>
    have hmiddle := fun entry he => (Changes.changed hfirst).between hlast.changed.toSteady
      (hcalm entry he)
    exact hlast.sublist_queue (ih hmiddle) fun entry he =>
      (hcalm entry he).trans (hmiddle entry he).symm

end Scheduler

end CoopTasks

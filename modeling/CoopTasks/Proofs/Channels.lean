import CoopTasks.Proofs.Fifo
import CoopTasks.Proofs.Precedence

/-!
# Channels of a scheduler

A channel is opened empty, and from then on only two things happen to it: the task whose turn it is
puts, takes or closes, or tasks that are signalled are withdrawn. So what a channel keeps it keeps
along every run.
-/

namespace CoopTasks

namespace Channel

/-- Several tasks are withdrawn, one after the other. -/
def without (c : Channel) (tasks : List TaskId) : Channel := tasks.foldl withdraw c

@[simp] theorem without_nil (c : Channel) : c.without [] = c := rfl

theorem without_append (c : Channel) (tasks others : List TaskId) :
    c.without (tasks ++ others) = (c.without tasks).without others :=
  List.foldl_append

@[simp] theorem buffer_without (c : Channel) (tasks : List TaskId) :
    (c.without tasks).buffer = c.buffer := by
  induction tasks generalizing c with
  | nil => rfl
  | cons task rest ih => exact ih (c.withdraw task)

@[simp] theorem closed_without (c : Channel) (tasks : List TaskId) :
    (c.without tasks).closed = c.closed := by
  induction tasks generalizing c with
  | nil => rfl
  | cons task rest ih => exact ih (c.withdraw task)

theorem takers_without (c : Channel) (tasks : List TaskId) :
    (c.without tasks).takers = c.takers.filter (· ∉ tasks) := by
  induction tasks generalizing c with
  | nil => simp
  | cons task rest ih =>
    have hrest := ih (c.withdraw task)
    rw [show c.without (task :: rest) = (c.withdraw task).without rest from rfl, hrest]
    simp only [withdraw, List.filter_filter, List.mem_cons, not_or]
    refine List.filter_congr fun id _ => ?_
    by_cases hid : id = task <;> simp [hid]

theorem Regular.without {c : Channel} (hc : c.Regular) (tasks : List TaskId) :
    (c.without tasks).Regular := by
  induction tasks generalizing c with
  | nil => exact hc
  | cons task rest ih => exact ih (hc.withdraw task)

/-- Nothing is added to a channel that is closed. -/
theorem Regular.length_apply {c : Channel} (hc : c.Regular) (hclosed : c.closed = true)
    (event : Event) : (c.apply event).buffer.length ≤ c.buffer.length := by
  cases event with
  | put putter value =>
    rw [apply_put, put_of_closed hclosed]
  | take taker =>
    have hp := (hc.shut hclosed).2
    rcases c.take_cases taker with heq | ⟨hopen, -⟩ | ⟨value, rest, heq⟩ |
      ⟨value, buffer, putter, next, putters, hcons, -⟩
    · rw [apply_take, heq]
    · rw [hclosed] at hopen
      cases hopen
    · have hleaves := (hc.leaves taker)
      rw [heq] at hleaves
      have hlength := congrArg List.length hleaves.1
      simp only [content, hp, List.map_nil, List.append_nil, List.length_cons] at hlength
      rw [apply_take, heq, hlength]
      exact Nat.le_succ _
    · rw [hp] at hcons
      cases hcons
  | withdraw task => exact Nat.le_refl _
  | close => simp [Channel.close, hclosed]

end Channel

namespace Effect

variable {P W : Type}

/-- The channel that an effect of a task is about, and what it does to it. -/
def event? (id : TaskId) : Effect P W → Option (ChannelId × Channel.Event)
  | .take (.channel c) | .channelTake c => some (c, .take id)
  | .channelPut c value => some (c, .put id value)
  | .channelClose c => some (c, .close)
  | _ => none

/-- Effects on a channel are valid as they are. -/
theorem violation?_of_event? {id : TaskId} {effect : Effect P W}
    {dealing : ChannelId × Channel.Event} (heffect : effect.event? id = some dealing) :
    effect.violation? = none := by
  cases effect <;> first | rfl | cases heffect

/-- A valid channel has room. -/
theorem roomy_of_violation? {policy : Buffering}
    (hvalid : (Effect.channel policy : Effect P W).violation? = none) : policy.Roomy := by
  cases policy with
  | unbounded => trivial
  | fixed capacity overflow =>
    cases capacity with
    | zero => simp [violation?, problems] at hvalid
    | succ n => exact Nat.succ_le_succ (Nat.zero_le n)

end Effect

namespace Scheduler

variable {P R W : Type} {s s' s'' : Scheduler P R W} {h : Host P R W}
variable {A : Set TaskId} {Q : Input → Prop} {id : TaskId} {ch : ChannelId} {c : Channel}
variable {log : List (Scheduler P R W × Move P)}

/-! ## Withdrawals -/

/-- The channels are as they were, less the tasks that have been signalled. -/
structure Drains (s s' : Scheduler P R W) : Prop where
  firm : Firm s s'
  channels : ∀ ch, ∃ tasks, s'.channels.find? ch = (s.channels.find? ch).map (·.without tasks) ∧
    ∀ id ∈ tasks, id.val < s.nextTask → s.isLive id ∧ Signalled s s' id

theorem Drains.of_same (hfirm : Firm s s') (hchannels : s'.channels = s.channels) :
    Drains s s' := by
  refine ⟨hfirm, fun ch => ⟨[], ?_, by simp⟩⟩
  rw [hchannels]
  cases s.channels.find? ch <;> rfl

theorem Drains.of_changes (hs : Changes A Q s s') (hchannels : s'.channels = s.channels) :
    Drains s s' :=
  .of_same hs.changed.firm hchannels

theorem Drains.refl (s : Scheduler P R W) : Drains s s := .of_same (.refl s) rfl

theorem Drains.trans (hs : Drains s s') (hs' : Drains s' s'') : Drains s s'' := by
  refine ⟨hs.firm.trans hs'.firm, fun ch => ?_⟩
  obtain ⟨tasks, heq, hsignalled⟩ := hs.channels ch
  obtain ⟨tasks', heq', hsignalled'⟩ := hs'.channels ch
  refine ⟨tasks ++ tasks', ?_, fun id hid hold => ?_⟩
  · rw [heq', heq, Option.map_map]
    congr 1
    funext c
    exact (c.without_append tasks tasks').symm
  · rcases List.mem_append.1 hid with hid | hid
    · obtain ⟨hl, hcalm, hcondemned⟩ := hsignalled id hid hold
      exact ⟨hl, hcalm, hs'.firm.condemned hcondemned⟩
    · obtain ⟨hl, hcalm, hcondemned⟩ :=
        hsignalled' id hid (Nat.lt_of_lt_of_le hold hs.firm.next)
      obtain ⟨t', ht'⟩ := Option.isSome_iff_exists.1 hl
      obtain ⟨t, ht, -⟩ := hs.firm.stands id t' ht' hold
      exact ⟨by simp [isLive_eq, ht], hs.firm.calm hold hl hcalm, hcondemned⟩

theorem Drains.foldl {α : Type} (f : Scheduler P R W → α → Scheduler P R W)
    (hf : ∀ s a, Drains s (f s a)) (as : List α) (s : Scheduler P R W) :
    Drains s (as.foldl f s) :=
  List.foldlRecOn (motive := Drains s) as f (.refl s) fun r hr a _ => hr.trans (hf r a)

theorem channels_mark (s : Scheduler P R W) (id : TaskId) (t : Task P R W) (wait : Wait)
    (ch : ChannelId) : ∃ tasks, (∀ j ∈ tasks, j = id) ∧
      (s.mark id t wait).channels.find? ch = (s.channels.find? ch).map (·.without tasks) := by
  have hself : s.channels.find? ch = (s.channels.find? ch).map (·.without []) := by
    cases s.channels.find? ch <;> rfl
  have hchannel : ∀ d, (s.channels.modify d (·.withdraw id)).find? ch =
      (s.channels.find? ch).map (·.without (if ch = d then [id] else [])) := by
    intro d
    rw [Table.find?_modify]
    split
    · rfl
    · exact hself
  have hmark : (s.mark id t wait).channels = ((s.updateTask id fun t =>
      { t with cancelling := true, wait }).withdraw id t.wait).channels := rfl
  rw [hmark]
  cases t.wait with
  | channelTake d => exact ⟨_, by split <;> simp, hchannel d⟩
  | channelPut d => exact ⟨_, by split <;> simp, hchannel d⟩
  | _ => exact ⟨[], by simp, hself⟩

theorem drains_signal (s : Scheduler P R W) (id : TaskId) : Drains s (s.signal id) := by
  have hfirm : Firm s (s.signal id) := (changed_signal (A := ∅) s id).firm
  rcases signal_cases s id with heq | ⟨t, wait, ht, hcalm, -, heq⟩
  · rw [heq]
    exact .refl s
  · refine ⟨hfirm, fun ch => ?_⟩
    obtain ⟨tasks, hself, hmark⟩ := channels_mark s id t wait ch
    have hchannels : (s.signal id).channels = (s.mark id t wait).channels := by
      rcases heq with heq | heq
      · rw [heq]
      · rw [heq]
        rfl
    have hcancel : (s.signal id).beingCancelled id = true := by
      rcases heq with heq | heq <;> rw [heq] <;> exact beingCancelled_mark ht wait
    refine ⟨tasks, by rw [hchannels, hmark], fun j hj hold => ?_⟩
    obtain rfl := hself j hj
    refine ⟨by simp [isLive_eq, ht], by rw [beingCancelled_eq ht, hcalm], ?_⟩
    exact condemned_of_beingCancelled (Nat.lt_of_lt_of_le hold hfirm.next) hcancel

theorem drains_cancelSubtree (s : Scheduler P R W) (root : TaskId) :
    Drains s (s.cancelSubtree root) :=
  .foldl _ drains_signal _ s

theorem drains_cancelSubtrees (s : Scheduler P R W) (roots : List TaskId) :
    Drains s (s.cancelSubtrees roots) :=
  .foldl _ drains_cancelSubtree _ s

theorem channels_wakeIfWaiting (s : Scheduler P R W) (id : TaskId) (wait : Wait) (input : Input) :
    (s.wakeIfWaiting id wait input).channels = s.channels := by
  unfold wakeIfWaiting
  split <;> rfl

theorem channels_answerJoiners (s : Scheduler P R W) (joiners : List TaskId)
    (record : Settlement) : (s.answerJoiners joiners record).channels = s.channels := by
  refine List.foldlRecOn (motive := fun r : Scheduler P R W => r.channels = s.channels) _ _ rfl
    fun r hr joiner _ => ?_
  exact (channels_wakeIfWaiting ..).trans hr

theorem channels_raiseOf (s : Scheduler P R W) (id : TaskId) (outcome : Outcome) :
    (s.raiseOf id outcome).channels = s.channels := by
  unfold raiseOf
  split <;> rfl

theorem drains_wakeIfWaiting (s : Scheduler P R W) (id : TaskId) (wait : Wait) (input : Input) :
    Drains s (s.wakeIfWaiting id wait input) :=
  .of_changes (A := ∅) (changes_wakeIfWaiting (Q := (· = input)) s id wait rfl)
    (channels_wakeIfWaiting s id wait input)

theorem drains_abort (s : Scheduler P R W) (id : TaskId) (error : TaskError) :
    Drains s (s.abort id error) := by
  rcases abort_cases s id error with ⟨heq, -⟩ | ⟨t, ht, hcalm, -, heq⟩ <;> rw [heq]
  · exact .refl s
  · have hblamed : Readied s (s.updateTask id fun t => { t with abort := some error }) := by
      refine ⟨fun j => ?_, rfl, rfl, rfl⟩
      by_cases hj : j = id
      · exact Or.inr ⟨t, error, hj ▸ ht, hcalm, by simp [hj, ht]⟩
      · exact Or.inl (by simp [hj])
    exact (Drains.of_same hblamed.firm rfl).trans (drains_cancelSubtree _ id)

theorem drains_settleBranch (s : Scheduler P R W) (g : GroupId) (slot : Nat) (outcome : Outcome) :
    Drains s (s.settleBranch g slot outcome) := by
  rcases settleBranch_cases s g slot outcome with
    ⟨-, heq⟩ | ⟨group, -, ⟨-, heq⟩ | ⟨input, -, heq⟩⟩ <;> rw [heq]
  · exact .refl s
  · exact .of_same (.of_tasks rfl rfl) rfl
  · have herase : Drains s { s with groups := s.groups.erase g } :=
      .of_same (.of_tasks rfl rfl) rfl
    exact (herase.trans (drains_wakeIfWaiting _ _ _ _)).trans (drains_cancelSubtrees _ _)

theorem drains_deliver (s : Scheduler P R W) (t : Task P R W) (record : Settlement) :
    Drains s (s.deliver t record) := by
  rcases deliver_cases s t record with
    heq | ⟨caller, -, -, heq⟩ | ⟨e, -, -, heq⟩ | ⟨parent, e, -, -, -, -, heq⟩ |
      ⟨g, slot, -, -, heq⟩ <;> rw [heq]
  · exact .refl s
  · exact drains_wakeIfWaiting _ _ _ _
  · exact .of_same (.of_tasks rfl rfl) rfl
  · exact drains_abort _ _ _
  · exact drains_settleBranch _ _ _ _

theorem drains_after (d : Departure P R W) (h : Host P R W) : Drains d.before (d.after h) := by
  have hcleared : (d.cleared h).channels = d.before.channels := by
    unfold Departure.cleared
    cases d.task.parent <;> rfl
  have hfiled : (d.filed h).channels = d.before.channels :=
    (channels_answerJoiners _ _ _).trans hcleared
  rw [d.after_eq h]
  exact (Drains.of_same (firm_filed d h) hfiled).trans (drains_deliver _ _ _)

theorem drains_settleWithin (h : Host P R W) (fuel : Nat) (id : TaskId) (s : Scheduler P R W) :
    Drains s (settleWithin h fuel id s) :=
  settleWithin_preserves (I := Drains s)
    (fun r id t _ _ hr => hr.trans (drains_after ⟨r, id, t⟩ h)) fuel id (.refl s)

theorem drains_finish (s : Scheduler P R W) (h : Host P R W) (id : TaskId) (outcome : Outcome) :
    Drains s (s.finish h id outcome) := by
  have hraise : Drains s (s.raiseOf id outcome) :=
    .of_changes (A := ∅) (changes_raiseOf (Q := s.plain) s id outcome)
      (channels_raiseOf s id outcome)
  unfold finish
  split
  · exact hraise
  · have hend : Drains (s.raiseOf id outcome) ((s.raiseOf id outcome).endProcess id outcome) :=
      .of_changes (changes_endProcess (Q := s.plain) _ (Set.mem_singleton id) outcome) rfl
    exact ((hraise.trans hend).trans (drains_cancelSubtrees _ _)).trans
      (drains_settleWithin h _ id _)

/-! ## Effects -/

theorem channels_wakeAll (s : Scheduler P R W) (ids : List TaskId) (v : Value) :
    (s.wakeAll ids v).channels = s.channels :=
  List.foldlRecOn (motive := fun r : Scheduler P R W => r.channels = s.channels) _ _ rfl
    fun _ hr _ _ => hr

theorem channels_addTask (s : Scheduler P R W) (name : String) (parent : Option TaskId)
    (role : Role) (process : Process P R W) :
    (s.addTask name parent role process).2.channels = s.channels := by
  cases parent <;> rfl

theorem channels_spawn (s : Scheduler P R W) (h : Host P R W) (process : P) (args : List Value)
    (parent : Option TaskId) (role : Role) :
    (s.spawn h process args parent role).2.channels = s.channels :=
  channels_addTask ..

theorem channels_addBranches (owner : TaskId) (group : GroupId) (mode : GroupMode) (slot : Nat)
    (effects : List (Effect P W)) (s : Scheduler P R W) :
    (s.addBranches owner group mode slot effects).2.channels = s.channels := by
  induction effects generalizing slot s with
  | nil => rfl
  | cons effect rest ih => exact ih (slot + 1) _

theorem channels_startGroup (s : Scheduler P R W) (id : TaskId) (mode : GroupMode)
    (effects : List (Effect P W)) : (s.startGroup id mode effects).channels = s.channels := by
  unfold startGroup
  split
  · rfl
  · exact channels_addBranches ..

theorem channels_call (s : Scheduler P R W) (id : TaskId) (operation : Operation W)
    (args : List Value) : (s.call id operation args).channels = s.channels := by
  unfold call
  obtain ⟨outcome, pending, world⟩ := s.pending.carryOut id (operation.invoke args id s.world)
  cases outcome <;> rfl

theorem channels_join {target : TaskId} (hs : s.join id target = .ok s') :
    s'.channels = s.channels := by
  unfold join at hs
  split at hs
  · cases hs
    rfl
  · split at hs
    · cases hs
      rfl
    · split at hs <;> cases hs
      rfl

theorem drains_cancel {target : TaskId} (hs : s.cancel id target = .ok s') : Drains s s' := by
  have hanswer : Drains s (s.answer id .unit) :=
    .of_changes (A := ∅) (changes_answer (Q := fun _ => True) (fun _ _ => trivial) s id _) rfl
  unfold cancel at hs
  split at hs
  · split at hs <;> cases hs
    · exact drains_cancelSubtree s target
    · exact hanswer.trans (drains_cancelSubtree _ target)
  · split at hs <;> cases hs
    exact hanswer

theorem firm_carryOut (htidy : Tidy s) (hl : s.isLive id) {effect : Effect P W}
    (hs : s.carryOut h id effect = .ok s') : Firm s s' := by
  rcases changes_carryOut (A := ∅) (Q := fun _ => True) (fun _ _ => trivial) (fun _ _ => trivial)
    htidy.forest.fresh_task hs with hchanges | ⟨mode, effects, -, -, rfl⟩
  · exact hchanges.changed.firm
  · exact (steady_startGroup (A := ∅) htidy hl mode effects).firm

/-- An effect that is not about a channel withdraws tasks at most. -/
theorem drains_carryOut (htidy : Tidy s) (hl : s.isLive id) {effect : Effect P W}
    (heffect : effect.event? id = none) (hopen : ∀ policy, effect ≠ .channel policy)
    (hs : s.carryOut h id effect = .ok s') : Drains s s' := by
  have hsame : s'.channels = s.channels → Drains s s' := .of_same (firm_carryOut htidy hl hs)
  cases effect with
  | call operation args => cases hs; exact hsame (channels_call ..)
  | callProcess process args => cases hs; exact hsame (channels_spawn s h process args _ .called)
  | put n => cases hs; exact hsame (channels_wakeAll ..)
  | take pattern =>
    cases pattern with
    | channel channel => cases heffect
    | _ => cases hs; exact hsame rfl
  | fork process args => cases hs; exact hsame (channels_spawn s h process args _ .forked)
  | join target => exact hsame (channels_join hs)
  | cancel target => exact drains_cancel hs
  | cancelled => cases hs; exact hsame rfl
  | all effects => cases hs; exact hsame (channels_startGroup ..)
  | race branches => cases hs; exact hsame (channels_startGroup ..)
  | channel policy => exact absurd rfl (hopen policy)
  | channelTake channel => cases heffect
  | channelPut channel value => cases heffect
  | channelClose channel => cases heffect
  | select selector => cases hs; exact hsame rfl

theorem channels_channelTake (hc : s.channels.find? ch = some c) (id : TaskId) :
    ∃ s', s.channelTake id ch = .ok s' ∧
      s'.channels = s.channels.modify ch fun _ => (c.take id).2 := by
  simp only [channelTake, hc]
  obtain ⟨answer, c'⟩ := c.take id
  cases answer with
  | ready v unblocked => cases unblocked <;> exact ⟨_, rfl, rfl⟩
  | pending => exact ⟨_, rfl, rfl⟩
  | closed => exact ⟨_, rfl, rfl⟩

theorem channels_channelPut (hc : s.channels.find? ch = some c) (id : TaskId) (v : Value) :
    ∃ s', s.channelPut id ch v = .ok s' ∧
      s'.channels = s.channels.modify ch fun _ => (c.put id v).2 := by
  simp only [channelPut, hc]
  obtain ⟨answer, c'⟩ := c.put id v
  cases answer <;> exact ⟨_, rfl, rfl⟩

theorem channels_channelClose (hc : s.channels.find? ch = some c) (id : TaskId) :
    ∃ s', s.channelClose id ch = .ok s' ∧ s'.channels = s.channels.modify ch fun _ => c.close := by
  simp only [channelClose, hc]
  refine ⟨_, rfl, ?_⟩
  rw [channels_wakeAll, channels_wakeAll]
  rfl

/-- A task takes, puts or closes. -/
theorem event_cases {effect : Effect P W} {event : Channel.Event}
    (heffect : effect.event? id = some (ch, event)) (s : Scheduler P R W) (h : Host P R W) :
    event = .take id ∧ s.carryOut h id effect = s.channelTake id ch ∨
    (∃ v, event = .put id v ∧ s.carryOut h id effect = s.channelPut id ch v) ∨
    event = .close ∧ s.carryOut h id effect = s.channelClose id ch := by
  cases effect with
  | take pattern =>
    cases pattern with
    | channel channel => cases heffect; exact Or.inl ⟨rfl, rfl⟩
    | _ => cases heffect
  | channelTake channel => cases heffect; exact Or.inl ⟨rfl, rfl⟩
  | channelPut channel v => cases heffect; exact Or.inr (Or.inl ⟨v, rfl, rfl⟩)
  | channelClose channel => cases heffect; exact Or.inr (Or.inr ⟨rfl, rfl⟩)
  | _ => cases heffect

/-- An effect on a channel that exists does what it says. -/
theorem carryOut_of_event? {effect : Effect P W} {event : Channel.Event}
    (heffect : effect.event? id = some (ch, event)) (hc : s.channels.find? ch = some c) :
    ∃ s', s.carryOut h id effect = .ok s' ∧
      s'.channels = s.channels.modify ch fun _ => c.apply event := by
  rcases event_cases heffect s h with ⟨rfl, heq⟩ | ⟨v, rfl, heq⟩ | ⟨rfl, heq⟩ <;> rw [heq]
  · exact channels_channelTake hc id
  · exact channels_channelPut hc id v
  · exact channels_channelClose hc id

/-- An effect on a channel that was never opened is a violation. -/
theorem carryOut_of_unknown {effect : Effect P W} {event : Channel.Event}
    (heffect : effect.event? id = some (ch, event)) (hc : s.channels.find? ch = none) :
    s.carryOut h id effect = .error (.unknownChannel ch) := by
  rcases event_cases heffect s h with ⟨rfl, heq⟩ | ⟨v, rfl, heq⟩ | ⟨rfl, heq⟩ <;> rw [heq]
  · simp [channelTake, hc]
  · simp [channelPut, hc]
  · simp [channelClose, hc]

/-! ## Moves -/

/-- What the task whose turn it is does to a channel. -/
def dealing? (s : Scheduler P R W) (h : Host P R W) : Move P → Option (ChannelId × Channel.Event)
  | .step => (s.turn? h).bind fun
    | (id, .yield effect) => effect.event? id
    | _ => none
  | _ => none

/-- What a move does to the channels. -/
inductive Dealt (s s' : Scheduler P R W) : Option (ChannelId × Channel.Event) → Prop where
  /-- Tasks are withdrawn at most. -/
  | drained {dealing : Option (ChannelId × Channel.Event)} : Drains s s' →
      (∀ ch event, dealing = some (ch, event) → s.channels.find? ch = none) → Dealt s s' dealing
  | opened (policy : Buffering) : policy.Roomy →
      s'.channels = s.channels.insert ⟨s.nextChannel⟩ { policy } → Dealt s s' none
  | done {ch : ChannelId} {event : Channel.Event} {c : Channel} : s.channels.find? ch = some c →
      s'.channels = s.channels.modify ch (fun _ => c.apply event) → Dealt s s' (some (ch, event))

theorem channels_note (s : Scheduler P R W) (h : Host P R W) (id : TaskId) (effect : Effect P W) :
    (s.note h id effect).channels = s.channels ∧
      (s.note h id effect).nextChannel = s.nextChannel := by
  unfold note
  split <;> exact ⟨rfl, rfl⟩

theorem drains_note (s : Scheduler P R W) (h : Host P R W) (id : TaskId) (effect : Effect P W) :
    Drains s (s.note h id effect) :=
  .of_changes (A := ∅) (changes_note (Q := s.plain) s h id effect) (channels_note s h id effect).1

theorem dealt_dispatch (htidy : Tidy s) (hl : s.isLive id) (h : Host P R W)
    (effect : Effect P W) : Dealt s (s.dispatch h id effect) (effect.event? id) := by
  have hnote := drains_note s h id effect
  obtain ⟨hchannels, hnext⟩ := channels_note s h id effect
  have htree := (quiet_note s h id effect).tree
  rcases dispatch_cases s h id effect with
    ⟨s', hvalid, hs, heq⟩ | ⟨violation, ⟨hinvalid, heq⟩ | ⟨hs, heq⟩⟩ <;> rw [heq]
  · cases heffect : effect.event? id with
    | some dealing =>
      obtain ⟨ch, event⟩ := dealing
      cases hc : s.channels.find? ch with
      | none =>
        rw [carryOut_of_unknown heffect (by rwa [hchannels])] at hs
        cases hs
      | some c =>
        obtain ⟨r, hr, hdone⟩ :=
          carryOut_of_event? (s := s.note h id effect) (h := h) heffect (by rwa [hchannels])
        obtain rfl := Except.ok.inj (hs.symm.trans hr)
        rw [hchannels] at hdone
        exact .done hc hdone
    | none =>
      by_cases hopen : ∃ policy, effect = .channel policy
      · obtain ⟨policy, rfl⟩ := hopen
        refine .opened policy (Effect.roomy_of_violation? hvalid) ?_
        cases hs
        rw [← hchannels, ← hnext]
        rfl
      · have hdrains := drains_carryOut (htidy.congr htree) (by rwa [htree.isLive]) heffect
          (fun policy he => hopen ⟨policy, he⟩) hs
        exact .drained (hnote.trans hdrains) (by simp)
  · refine .drained (drains_finish s h id _) fun ch event hdealing => ?_
    rw [Effect.violation?_of_event? hdealing] at hinvalid
    cases hinvalid
  · refine .drained (hnote.trans (drains_finish _ h id _)) fun ch event hdealing => ?_
    cases hc : s.channels.find? ch with
    | none => rfl
    | some c =>
      obtain ⟨r, hr, -⟩ :=
        carryOut_of_event? (s := s.note h id effect) (h := h) hdealing (by rwa [hchannels])
      rw [hr] at hs
      cases hs

theorem channels_takeFault (s : Scheduler P R W) : s.takeFault.2.channels = s.channels := by
  unfold takeFault
  split <;> rfl

theorem drains_takeFault (s : Scheduler P R W) : Drains s s.takeFault.2 :=
  .of_changes (A := ∅) (changes_takeFault (Q := s.plain) s) (channels_takeFault s)

theorem channels_applyCompletion (s : Scheduler P R W) (completion : Completion) :
    (s.applyCompletion completion).2.channels = s.channels := by
  unfold applyCompletion
  split
  · dsimp only
    split <;> rfl
  · split <;> rfl

theorem channels_announce (s : Scheduler P R W) (h : Host P R W) (n : Notification) :
    (s.announce h n).channels = s.channels :=
  List.foldlRecOn (motive := fun r : Scheduler P R W => r.channels = s.channels) _ _ rfl
    fun _ hr _ _ => hr

/-- Moves other than steps withdraw tasks at most. -/
theorem Run.drains_move (run : Run h log s) {m : Move P} (hm : m ≠ .step) :
    Drains s (s.move h m) := by
  have hsame : (s.move h m).channels = s.channels → Drains s (s.move h m) :=
    .of_same (run.firm_move m)
  cases m with
  | step => exact absurd rfl hm
  | enroll process args => exact hsame (channels_spawn s h process args none .root)
  | announce n => exact hsame (channels_announce s h n)
  | deliver completion => exact hsame (channels_applyCompletion s completion)
  | receive =>
    refine hsame ?_
    simp only [Scheduler.move]
    split
    · rfl
    · exact channels_applyCompletion _ _
  | cancel id => exact drains_cancelSubtree s id
  | _ => exact hsame rfl

/-- Nothing else happens to the channels in a turn. -/
theorem Dealt.within {r r' : Scheduler P R W} {dealing : Option (ChannelId × Channel.Event)}
    (hd : Dealt r r' dealing) (hs : Drains s r) (hchannels : r.channels = s.channels)
    (hnext : r.nextChannel = s.nextChannel) (hs' : Drains r' s')
    (hchannels' : s'.channels = r'.channels) : Dealt s s' dealing := by
  cases hd with
  | drained hdrains hnone =>
    exact .drained ((hs.trans hdrains).trans hs') fun ch event hdealing =>
      hchannels ▸ hnone ch event hdealing
  | opened policy hroomy hopened =>
    exact .opened policy hroomy (by rw [hchannels', hopened, hchannels, hnext])
  | done hc hdone =>
    exact .done (hchannels ▸ hc) (by rw [hchannels', hdone, hchannels])

/-- What a move does to the channels is what the task does whose turn it is, if it is a step. -/
theorem Run.dealt (run : Run h log s) (m : Move P) : Dealt s (s.move h m) (s.dealing? h m) := by
  by_cases hm : m = .step
  · subst hm
    cases hq : s.queue with
    | nil =>
      rw [move_step_nil h hq]
      exact .drained (.refl s) (by simp [dealing?, turn?, hq])
    | cons entry rest =>
      obtain ⟨id, input⟩ := entry
      have hm : (id, input) ∈ s.queue := by rw [hq]; exact List.mem_cons_self
      obtain ⟨t, ht, hp⟩ := run.find_of_queued hm
      obtain ⟨process, hp⟩ := Option.isSome_iff_exists.1 hp
      have ht' : task? { s with queue := rest } id = some t := ht
      obtain ⟨process', world, hcase⟩ := step_of_process ht' hp h input
      have hstore : Drains s ({ s with queue := rest, world }.storeProcess id process') := by
        have hframe : Drains s { s with queue := rest, world } := .of_same (.of_tasks rfl rfl) rfl
        have hstored : Changes {id} s.plain { s with queue := rest, world } _ :=
          changes_storeProcess _ (Set.mem_singleton id) process'
        exact hframe.trans (.of_changes hstored rfl)
      rw [move_step_cons h hq]
      rcases hcase with ⟨effect, hstep, heq⟩ | ⟨answer, outcome, hstep, hterminal, heq⟩ <;> rw [heq]
      · have hdealing : s.dealing? h .step = effect.event? id := by
          simp [dealing?, turn?, hq, ht, hp, show process.step _ _ s.world = _ from hstep]
        have htidy : Tidy ({ s with queue := rest, world }.storeProcess id process') :=
          Tidy.storeProcess (s := { s with queue := rest }) (run.tidy.congr (.of_tasks rfl rfl))
            id process' world
        rw [hdealing]
        exact (dealt_dispatch htidy (isLive_storeProcess ht' process' world) h effect).within hstore
          rfl rfl (drains_takeFault _) (channels_takeFault _)
      · have hdealing : s.dealing? h .step = none := by
          cases answer <;> simp_all [dealing?, turn?, Step.isTerminal]
        rw [hdealing]
        exact .drained ((hstore.trans (drains_finish _ h id outcome)).trans (drains_takeFault _))
          (by simp)
  · have hdealing : s.dealing? h m = none := by
      cases m <;> first | rfl | exact absurd rfl hm
    rw [hdealing]
    exact .drained (run.drains_move hm) (by simp)

/-- In a move the task whose turn it is does something to a channel, or some that wait there are
signalled. -/
theorem Run.channel_move (run : Run h log s) (m : Move P) (hc : s.channels.find? ch = some c) :
    (∃ event, s.dealing? h m = some (ch, event) ∧
      (s.move h m).channels.find? ch = some (c.apply event)) ∨
    (∀ event, s.dealing? h m ≠ some (ch, event)) ∧ ∃ tasks,
      (s.move h m).channels.find? ch = some (c.without tasks) ∧
      ∀ id ∈ tasks, id.val < s.nextTask → s.isLive id ∧ Signalled s (s.move h m) id := by
  have hdealt := run.dealt m
  generalize hdealing : s.dealing? h m = dealing at hdealt ⊢
  cases hdealt with
  | drained hdrains hnone =>
    right
    obtain ⟨tasks, heq, hsignalled⟩ := hdrains.channels ch
    refine ⟨fun event he => ?_, tasks, by rw [heq, hc]; rfl, hsignalled⟩
    rw [hnone ch event he] at hc
    cases hc
  | opened policy hroomy hopened =>
    right
    have hne : ch ≠ ⟨s.nextChannel⟩ := by
      rintro rfl
      exact absurd (run.coherent.sound.channels _ c hc) (Nat.lt_irrefl _)
    refine ⟨by simp, [], ?_, by simp⟩
    rw [hopened, Table.find?_insert, if_neg hne, hc, Channel.without_nil]
  | @done ch' event c' hc' hdone =>
    by_cases hch : ch = ch'
    · subst hch
      obtain rfl := Option.some.inj (hc.symm.trans hc')
      exact Or.inl ⟨event, rfl, by rw [hdone, Table.find?_modify, if_pos rfl, hc]; rfl⟩
    · right
      refine ⟨fun event' he => hch ?_, [], ?_, by simp⟩
      · exact (Prod.mk.inj (Option.some.inj he)).1.symm
      · rw [hdone, Table.find?_modify, if_neg hch, hc, Channel.without_nil]

/-- A channel is opened empty. -/
theorem Run.channel_new (run : Run h log s) (m : Move P) (hnone : s.channels.find? ch = none)
    (hc : (s.move h m).channels.find? ch = some c) :
    ∃ policy : Buffering, policy.Roomy ∧ c = { policy } := by
  have hdealt := run.dealt m
  generalize s.dealing? h m = dealing at hdealt
  cases hdealt with
  | drained hdrains _ =>
    obtain ⟨tasks, heq, -⟩ := hdrains.channels ch
    rw [heq, hnone] at hc
    cases hc
  | opened policy hroomy hopened =>
    rw [hopened, Table.find?_insert] at hc
    split at hc
    · exact ⟨policy, hroomy, (Option.some.inj hc).symm⟩
    · rw [hnone] at hc
      cases hc
  | @done ch' event c' hc' hdone =>
    rw [hdone, Table.find?_modify, hnone] at hc
    split at hc <;> cases hc

/-! ## Turns -/

/-- What is done to a channel is done by the task whose turn it is. -/
theorem turn_of_dealing? {m : Move P} {event : Channel.Event}
    (hd : s.dealing? h m = some (ch, event)) : m = .step ∧
      ∃ id effect, s.turn? h = some (id, .yield effect) ∧ effect.event? id = some (ch, event) := by
  cases m with
  | step =>
    obtain ⟨⟨id, answer⟩, hturn, hevent⟩ := Option.bind_eq_some_iff.1 hd
    cases answer with
    | yield effect => exact ⟨rfl, id, effect, hturn, hevent⟩
    | done v => cases hevent
    | failed e => cases hevent
  | _ => cases hd

/-- The turn of a task that does something to a channel: its process goes on, and the effect is
carried out. -/
theorem Run.event_turn (run : Run h log s) {effect : Effect P W} {event : Channel.Event}
    (hturn : s.turn? h = some (id, .yield effect)) (heffect : effect.event? id = some (ch, event)) :
    ∃ t process input rest r, s.queue = (id, input) :: rest ∧ s.task? id = some t ∧
      t.process = some process ∧
      (process.step h.program.resume input s.world).1 = .yield effect ∧
      (∃ u, r.task? id = some u ∧
        u.process = some (process.step h.program.resume input s.world).2.1) ∧
      r.queue = rest ∧ r.channels = s.channels ∧ Tidy r ∧
      ∀ r', r.carryOut h id effect = .ok r' → s.move h .step = r'.takeFault.2 := by
  obtain ⟨t, process, input, rest, hq, ht, hp, hyield, hmove⟩ := turn_yield hturn
  let r := { s with queue := rest, world := (process.step h.program.resume input s.world).2.2 }
    |>.storeProcess id (process.step h.program.resume input s.world).2.1
  have htidy : Tidy r := Tidy.storeProcess (s := { s with queue := rest })
    (run.tidy.congr (.of_tasks rfl rfl)) id _ _
  have hnote : (r.note h id effect).queue = rest ∧ (r.note h id effect).tasks = r.tasks := by
    unfold note
    split <;> exact ⟨rfl, rfl⟩
  refine ⟨t, process, input, rest, r.note h id effect, hq, ht, hp, hyield, ?_, hnote.1,
    (channels_note r h id effect).1, htidy.congr (quiet_note r h id effect).tree, fun r' hr' => ?_⟩
  · have hstored := task?_storeProcess (s := { s with queue := rest }) ht
      (process.step h.program.resume input s.world).2.1
      (process.step h.program.resume input s.world).2.2
    exact ⟨_, (task?_of_tasks hnote.2 id).trans hstored, rfl⟩
  · have hvalid := Effect.violation?_of_event? heffect
    rw [hmove]
    simp only [dispatch, hvalid]
    rw [show (r.note h id effect).carryOut h id effect = .ok r' from hr']

/-! ## The invariant -/

theorem Run.regular (run : Run h log s) (hc : s.channels.find? ch = some c) : c.Regular := by
  induction run generalizing c with
  | new hs =>
    obtain rfl := eq_of_new hs
    cases hc
  | @move log s run m ih =>
    cases hold : s.channels.find? ch with
    | none =>
      obtain ⟨policy, hroomy, rfl⟩ := run.channel_new m hold hc
      exact .new hroomy
    | some c' =>
      rcases run.channel_move m hold with ⟨event, -, heq⟩ | ⟨-, tasks, heq, -⟩
      · obtain rfl := Option.some.inj (hc.symm.trans heq)
        exact (ih hold).apply event
      · obtain rfl := Option.some.inj (hc.symm.trans heq)
        exact (ih hold).without tasks

/-- A closed channel stays closed, and runs dry. -/
theorem Run.closed_moves (run : Run h log s) (hc : s.channels.find? ch = some c)
    (hclosed : c.closed = true) (ms : List (Move P)) :
    ∃ c', (s.moves h ms).channels.find? ch = some c' ∧ c'.closed = true ∧
      c'.buffer.length ≤ c.buffer.length := by
  induction ms generalizing log s c with
  | nil => exact ⟨c, hc, hclosed, Nat.le_refl _⟩
  | cons m ms ih =>
    obtain ⟨r, hr, hshut, hle⟩ : ∃ r, (s.move h m).channels.find? ch = some r ∧ r.closed = true ∧
        r.buffer.length ≤ c.buffer.length := by
      rcases run.channel_move m hc with ⟨event, -, heq⟩ | ⟨-, tasks, heq, -⟩
      · exact ⟨_, heq, by simp [Channel.closed_apply, hclosed],
          (run.regular hc).length_apply hclosed event⟩
      · exact ⟨_, heq, by simpa using hclosed, by simp⟩
    obtain ⟨c', hc', hshut', hle'⟩ := ih (run.move m) hr hshut
    exact ⟨c', hc', hshut', Nat.le_trans hle' hle⟩

/-- Tasks wait to take from a channel only if there is nothing to take. They are blocked only at an
open channel whose buffer is full and whose policy says so; the buffer of an open channel holds what
it has room for. Nobody waits at a closed channel, and it stays closed and runs dry. Hence a taker
and a putter never wait for each other at one channel. -/
theorem Run.channels_regular (run : Run h log s) :
    (∀ ch c, s.channels.find? ch = some c →
      (c.takers ≠ [] → c.buffer = [] ∧ c.putters = []) ∧
      (c.putters ≠ [] → c.closed = false ∧
        ∃ capacity, c.policy = .fixed capacity .block ∧ c.buffer.length = capacity) ∧
      (c.closed = false → ∀ capacity overflow, c.policy = .fixed capacity overflow →
        c.buffer.length ≤ capacity) ∧
      (c.closed = true → c.takers = [] ∧ c.putters = [] ∧
        ∀ ms, ∃ c', (s.moves h ms).channels.find? ch = some c' ∧ c'.closed = true ∧
          c'.buffer.length ≤ c.buffer.length)) ∧
    ∀ ch taker putter, ¬(s.wait? taker = some (.channelTake ch) ∧
      s.wait? putter = some (.channelPut ch)) := by
  refine ⟨fun ch c hc => ?_, fun ch taker putter ⟨htaker, hputter⟩ => ?_⟩
  · have hregular := run.regular hc
    refine ⟨hregular.apart, fun hne => ?_, hregular.fits, fun hclosed => ?_⟩
    · obtain ⟨hopen, hpolicy⟩ := hregular.blocked hne
      exact ⟨hopen, _, hpolicy, rfl⟩
    · obtain ⟨ht, hp⟩ := hregular.shut hclosed
      exact ⟨ht, hp, run.closed_moves hc hclosed⟩
  · obtain ⟨c, hc, hone, -⟩ := ((run.coherent.registered taker).channelTake ch).1 htaker
    obtain ⟨c', hc', hone', -⟩ := ((run.coherent.registered putter).channelPut ch).1 hputter
    obtain rfl := Option.some.inj (hc.symm.trans hc')
    have hnil := ((run.regular hc).apart fun hnil => by simp [hnil] at hone).2
    simp [hnil] at hone'

/-! ## A program of traders -/

/-- Small programs about the channel that is opened first. -/
inductive Trader where
  /-- Opens a channel with room for one value, and puts two. -/
  | narrow
  /-- Opens a channel without bound. -/
  | opener
  /-- Puts three values. -/
  | putter
  /-- Takes again and again. -/
  | taker

namespace Trader

def define : Trader → Definition Trader Unit Unit
  | .narrow => .script [.channel (.fixed 1 .block), .channelPut ⟨1⟩ .unit, .channelPut ⟨1⟩ .unit]
  | .opener => .script [.channel .unbounded]
  | .putter => .script [.channelPut ⟨1⟩ .unit, .channelPut ⟨1⟩ (.bool true),
      .channelPut ⟨1⟩ (.bool false)]
  | .taker => .routine fun _ w => ((), w)

end Trader

def market : Host Trader Unit Unit where
  program := ⟨fun _ => "trader", Trader.define, fun state _ w =>
    (.yield (.channelTake ⟨1⟩), state, w)⟩

/-- Where the traders are after some moves. -/
def marketAfter (ms : List (Move Trader)) : Scheduler Trader Unit Unit :=
  moves { world := () } market ms

theorem marketAfter_run (ms : List (Move Trader)) :
    Run market (history { world := () } market ms) (marketAfter ms) := by
  have hnew : Run market [] (({ world := () } : Scheduler Trader Unit Unit)) := .new rfl
  exact hnew.moves ms

/-- The second put is blocked behind a buffer that is full. -/
theorem channels_regular_narrow :
    let s := marketAfter [.enroll .narrow [], .step, .step, .step]
    ∃ c, s.channels.find? ⟨1⟩ = some c ∧ c.putters.map Prod.fst = [⟨1⟩] ∧ c.closed = false ∧
      c.buffer.length = 1 ∧ s.wait? ⟨1⟩ ≠ some (.channelTake ⟨1⟩) := by
  intro s
  have run := marketAfter_run [.enroll .narrow [], .step, .step, .step]
  refine ⟨_, rfl, rfl, ?_⟩
  obtain ⟨-, hblocked, -⟩ := run.channels_regular.1 ⟨1⟩ _ rfl
  obtain ⟨hopen, capacity, hpolicy, hfull⟩ := hblocked (List.cons_ne_nil _ _)
  cases hpolicy
  exact ⟨hopen, hfull, fun htake => run.channels_regular.2 ⟨1⟩ ⟨1⟩ ⟨1⟩ ⟨htake, rfl⟩⟩

end Scheduler

end CoopTasks

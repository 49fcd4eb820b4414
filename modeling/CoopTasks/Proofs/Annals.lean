import CoopTasks.Proofs.Execution

/-!
# Annals

A scheduler writes down what it dispatched, in a journal, and what the tasks settled with, in the
records that it keeps. What it does to the tasks does not depend on what is written there, with one
exception: a task that joins one that has settled is answered from the record. So whatever a
scheduler does, one with other annals does as well.
-/

namespace CoopTasks

variable {P R W : Type}

/-- What a scheduler writes down about the past. -/
structure Annals (P W : Type) where
  journal : Array (Dispatch P W)
  nextSeq : Nat
  settled : List Settlement

namespace Annals

/-- Files the record of a settled task, with room for so many records. -/
def file (a : Annals P W) (room : Nat) (record : Settlement) : Annals P W :=
  { a with settled := (record :: a.settled).take room }

/-- Enters a dispatched effect, if a journal is kept. -/
def note (a : Annals P W) (recording : Bool) (id : TaskId) (effect : Effect P W) : Annals P W :=
  if recording then
    { a with journal := a.journal.push ⟨a.nextSeq, id, effect⟩, nextSeq := a.nextSeq + 1 }
  else a

def dropJournal (a : Annals P W) : Annals P W := { a with journal := #[] }

end Annals

/-- The host with another configuration. -/
def Host.withConfig (h : Host P R W) (c : Config) : Host P R W := { h with config := c }

namespace Scheduler

variable {s s' : Scheduler P R W} {a a' : Annals P W} {h : Host P R W} {c : Config}

def annals (s : Scheduler P R W) : Annals P W := ⟨s.journal, s.nextSeq, s.settled⟩

/-- The scheduler with other annals. -/
def withAnnals (s : Scheduler P R W) (a : Annals P W) : Scheduler P R W :=
  { s with journal := a.journal, nextSeq := a.nextSeq, settled := a.settled }

@[simp] theorem annals_withAnnals (s : Scheduler P R W) (a : Annals P W) :
    (s.withAnnals a).annals = a := rfl

@[simp] theorem withAnnals_annals (s : Scheduler P R W) : s.withAnnals s.annals = s := rfl

/-! ## What is written -/

theorem note_eq (s : Scheduler P R W) (h : Host P R W) (id : TaskId) (effect : Effect P W) :
    s.note h id effect = s.withAnnals (s.annals.note h.config.recordDispatches id effect) := by
  unfold note Annals.note
  split <;> rfl

theorem dropJournal_eq (s : Scheduler P R W) :
    s.dropJournal = s.withAnnals s.annals.dropJournal := rfl

/-! ## What does not look at the annals

Every operation is carried past the change of the annals. -/

@[simp] theorem task?_withAnnals (s : Scheduler P R W) (a : Annals P W) (id : TaskId) :
    (s.withAnnals a).task? id = s.task? id := rfl

@[simp] theorem isLive_withAnnals (s : Scheduler P R W) (a : Annals P W) (id : TaskId) :
    (s.withAnnals a).isLive id = s.isLive id := rfl

@[simp] theorem wait?_withAnnals (s : Scheduler P R W) (a : Annals P W) (id : TaskId) :
    (s.withAnnals a).wait? id = s.wait? id := rfl

@[simp] theorem issued_withAnnals (s : Scheduler P R W) (a : Annals P W) (id : TaskId) :
    (s.withAnnals a).issued id = s.issued id := rfl

theorem lineageWithin_withAnnals (s : Scheduler P R W) (a : Annals P W) (fuel : Nat)
    (id : TaskId) : (s.withAnnals a).lineageWithin fuel id = s.lineageWithin fuel id := by
  induction fuel generalizing id with
  | zero => rfl
  | succ fuel ih =>
    have hparent : (s.withAnnals a).parent? id = s.parent? id := rfl
    simp only [lineageWithin, hparent, ih]

@[simp] theorem lineage_withAnnals (s : Scheduler P R W) (a : Annals P W) (id : TaskId) :
    (s.withAnnals a).lineage id = s.lineage id :=
  lineageWithin_withAnnals s a s.nextTask id

theorem subtreeWithin_withAnnals (s : Scheduler P R W) (a : Annals P W) (fuel : Nat)
    (id : TaskId) : (s.withAnnals a).subtreeWithin fuel id = s.subtreeWithin fuel id := by
  induction fuel generalizing id with
  | zero => rfl
  | succ fuel ih =>
    have hchildren : (s.withAnnals a).children id = s.children id := rfl
    simp only [subtreeWithin, isLive_withAnnals, hchildren, funext ih]

@[simp] theorem subtree_withAnnals (s : Scheduler P R W) (a : Annals P W) (id : TaskId) :
    (s.withAnnals a).subtree id = s.subtree id :=
  subtreeWithin_withAnnals s a s.nextTask id

@[simp] theorem forkOwner_withAnnals (s : Scheduler P R W) (a : Annals P W) (id : TaskId) :
    (s.withAnnals a).forkOwner id = s.forkOwner id := by
  simp [forkOwner]

@[simp] theorem updateTask_withAnnals (s : Scheduler P R W) (a : Annals P W) (id : TaskId)
    (f : Task P R W → Task P R W) :
    (s.withAnnals a).updateTask id f = (s.updateTask id f).withAnnals a := rfl

@[simp] theorem enqueueFirst_withAnnals (s : Scheduler P R W) (a : Annals P W) (id : TaskId)
    (input : Input) : (s.withAnnals a).enqueueFirst id input =
      (s.enqueueFirst id input).withAnnals a := rfl

@[simp] theorem enqueueLast_withAnnals (s : Scheduler P R W) (a : Annals P W) (id : TaskId)
    (input : Input) : (s.withAnnals a).enqueueLast id input =
      (s.enqueueLast id input).withAnnals a := rfl

@[simp] theorem wakeFirst_withAnnals (s : Scheduler P R W) (a : Annals P W) (id : TaskId)
    (input : Input) : (s.withAnnals a).wakeFirst id input =
      (s.wakeFirst id input).withAnnals a := rfl

@[simp] theorem suspend_withAnnals (s : Scheduler P R W) (a : Annals P W) (id : TaskId)
    (wait : Wait) : (s.withAnnals a).suspend id wait = (s.suspend id wait).withAnnals a := rfl

@[simp] theorem answer_withAnnals (s : Scheduler P R W) (a : Annals P W) (id : TaskId) (v : Value) :
    (s.withAnnals a).answer id v = (s.answer id v).withAnnals a := rfl

@[simp] theorem setChannel_withAnnals (s : Scheduler P R W) (a : Annals P W) (id : ChannelId)
    (c : Channel) : (s.withAnnals a).setChannel id c = (s.setChannel id c).withAnnals a := rfl

@[simp] theorem endProcess_withAnnals (s : Scheduler P R W) (a : Annals P W) (id : TaskId)
    (outcome : Outcome) : (s.withAnnals a).endProcess id outcome =
      (s.endProcess id outcome).withAnnals a := rfl

@[simp] theorem wakeIfWaiting_withAnnals (s : Scheduler P R W) (a : Annals P W) (id : TaskId)
    (wait : Wait) (input : Input) : (s.withAnnals a).wakeIfWaiting id wait input =
      (s.wakeIfWaiting id wait input).withAnnals a := by
  unfold wakeIfWaiting
  rw [wait?_withAnnals]
  split <;> rfl

@[simp] theorem addTask_withAnnals (s : Scheduler P R W) (a : Annals P W) (name : String)
    (parent : Option TaskId) (role : Role) (process : Process P R W) :
    (s.withAnnals a).addTask name parent role process =
      ((s.addTask name parent role process).1,
        (s.addTask name parent role process).2.withAnnals a) := by
  cases parent <;> rfl

@[simp] theorem spawn_withAnnals (s : Scheduler P R W) (a : Annals P W) (h : Host P R W)
    (process : P) (args : List Value) (parent : Option TaskId) (role : Role) :
    (s.withAnnals a).spawn h process args parent role =
      ((s.spawn h process args parent role).1,
        (s.spawn h process args parent role).2.withAnnals a) := by
  cases parent <;> rfl

@[simp] theorem publish_withAnnals (s : Scheduler P R W) (a : Annals P W) (h : Host P R W)
    (n : Notification) : (s.withAnnals a).publish h n =
      ((s.publish h n).1, (s.publish h n).2.withAnnals a) := rfl

/-- What is done once for every element of a list does not look at the annals if one time does
not. -/
theorem foldl_withAnnals {α : Type} {f : Scheduler P R W → α → Scheduler P R W}
    (hf : ∀ s a x, f (s.withAnnals a) x = (f s x).withAnnals a) (s : Scheduler P R W)
    (a : Annals P W) (xs : List α) : xs.foldl f (s.withAnnals a) = (xs.foldl f s).withAnnals a := by
  induction xs generalizing s with
  | nil => rfl
  | cons x rest ih => rw [List.foldl_cons, hf, ih, List.foldl_cons]

@[simp] theorem wakeAll_withAnnals (s : Scheduler P R W) (a : Annals P W) (ids : List TaskId)
    (v : Value) : (s.withAnnals a).wakeAll ids v = (s.wakeAll ids v).withAnnals a :=
  foldl_withAnnals (fun _ _ _ => rfl) s a _

/-! ## Cancelling and settling -/

@[simp] theorem mark_withAnnals (s : Scheduler P R W) (a : Annals P W) (id : TaskId)
    (t : Task P R W) (wait : Wait) : (s.withAnnals a).mark id t wait =
      (s.mark id t wait).withAnnals a := by
  unfold mark
  cases t.wait <;> rfl

@[simp] theorem signal_withAnnals (s : Scheduler P R W) (a : Annals P W) (id : TaskId) :
    (s.withAnnals a).signal id = (s.signal id).withAnnals a := by
  unfold signal
  rw [task?_withAnnals]
  cases s.task? id with
  | none => rfl
  | some t =>
    dsimp only
    split
    · rfl
    · split <;> simp

@[simp] theorem cancelSubtree_withAnnals (s : Scheduler P R W) (a : Annals P W) (root : TaskId) :
    (s.withAnnals a).cancelSubtree root = (s.cancelSubtree root).withAnnals a := by
  unfold cancelSubtree
  rw [subtree_withAnnals, foldl_withAnnals signal_withAnnals]

@[simp] theorem cancelSubtrees_withAnnals (s : Scheduler P R W) (a : Annals P W)
    (roots : List TaskId) :
    (s.withAnnals a).cancelSubtrees roots = (s.cancelSubtrees roots).withAnnals a :=
  foldl_withAnnals cancelSubtree_withAnnals s a roots

@[simp] theorem abort_withAnnals (s : Scheduler P R W) (a : Annals P W) (id : TaskId)
    (e : TaskError) : (s.withAnnals a).abort id e = (s.abort id e).withAnnals a := by
  unfold abort
  rw [task?_withAnnals]
  cases s.task? id with
  | none => rfl
  | some t =>
    dsimp only
    split <;> simp

@[simp] theorem settleBranch_withAnnals (s : Scheduler P R W) (a : Annals P W) (id : GroupId)
    (slot : Nat) (outcome : Outcome) : (s.withAnnals a).settleBranch id slot outcome =
      (s.settleBranch id slot outcome).withAnnals a := by
  unfold settleBranch
  have hgroup : (s.withAnnals a).groups.find? id = s.groups.find? id := rfl
  rw [hgroup]
  cases s.groups.find? id with
  | none => rfl
  | some group =>
    dsimp only
    cases group.settle slot outcome with
    | mk group' resolution =>
      cases resolution with
      | none => rfl
      | some input =>
        have herase : { s.withAnnals a with groups := (s.withAnnals a).groups.erase id } =
            { s with groups := s.groups.erase id }.withAnnals a := rfl
        dsimp only
        rw [herase, wakeIfWaiting_withAnnals, cancelSubtrees_withAnnals]

@[simp] theorem answerJoiners_withAnnals (s : Scheduler P R W) (a : Annals P W)
    (joiners : List TaskId) (record : Settlement) :
    (s.withAnnals a).answerJoiners joiners record =
      (s.answerJoiners joiners record).withAnnals a :=
  foldl_withAnnals (fun _ _ _ => wakeIfWaiting_withAnnals ..) s a _

@[simp] theorem deliver_withAnnals (s : Scheduler P R W) (a : Annals P W) (t : Task P R W)
    (record : Settlement) :
    (s.withAnnals a).deliver t record = (s.deliver t record).withAnnals a := by
  unfold deliver
  split
  · rfl
  · rfl
  · split
    · exact abort_withAnnals ..
    · rfl
  · rfl
  · split
    · rfl
    · exact settleBranch_withAnnals ..
  · exact wakeIfWaiting_withAnnals ..
  · rfl

@[simp] theorem remove_withAnnals (s : Scheduler P R W) (a : Annals P W) (id : TaskId)
    (parent : Option TaskId) :
    (s.withAnnals a).remove id parent = (s.remove id parent).withAnnals a := by
  cases parent <;> rfl

@[simp] theorem raiseOf_withAnnals (s : Scheduler P R W) (a : Annals P W) (id : TaskId)
    (outcome : Outcome) :
    (s.withAnnals a).raiseOf id outcome = (s.raiseOf id outcome).withAnnals a := by
  unfold raiseOf
  split <;> rfl

/-! ## Effects -/

/-- The answer to an effect, with other annals in the scheduler that it leaves. -/
def refiled (a : Annals P W) :
    Except Violation (Scheduler P R W) → Except Violation (Scheduler P R W) :=
  Except.map fun s => s.withAnnals a

@[simp] theorem refiled_ok (s : Scheduler P R W) (a : Annals P W) :
    refiled a (.ok s) = .ok (s.withAnnals a) := rfl

@[simp] theorem refiled_error (v : Violation) (a : Annals P W) :
    refiled a (.error v : Except Violation (Scheduler P R W)) = .error v := rfl

@[simp] theorem call_withAnnals (s : Scheduler P R W) (a : Annals P W) (id : TaskId)
    (operation : Operation W) (args : List Value) :
    (s.withAnnals a).call id operation args = (s.call id operation args).withAnnals a := by
  have hcalled : (s.withAnnals a).pending.carryOut id
      (operation.invoke args id (s.withAnnals a).world) =
        s.pending.carryOut id (operation.invoke args id s.world) := rfl
  unfold call
  rw [hcalled]
  cases s.pending.carryOut id (operation.invoke args id s.world) with
  | mk ending rest => cases ending <;> rfl

@[simp] theorem callProcess_withAnnals (s : Scheduler P R W) (a : Annals P W) (h : Host P R W)
    (id : TaskId) (process : P) (args : List Value) :
    (s.withAnnals a).callProcess h id process args =
      (s.callProcess h id process args).withAnnals a := by
  simp [callProcess]

@[simp] theorem put_withAnnals (s : Scheduler P R W) (a : Annals P W) (h : Host P R W)
    (id : TaskId) (n : Notification) :
    (s.withAnnals a).put h id n = (s.put h id n).withAnnals a := by
  simp [put]

@[simp] theorem fork_withAnnals (s : Scheduler P R W) (a : Annals P W) (h : Host P R W)
    (id : TaskId) (process : P) (args : List Value) :
    (s.withAnnals a).fork h id process args = (s.fork h id process args).withAnnals a := by
  simp [fork]

@[simp] theorem cancel_withAnnals (s : Scheduler P R W) (a : Annals P W) (id target : TaskId) :
    (s.withAnnals a).cancel id target = refiled a (s.cancel id target) := by
  unfold cancel
  rw [isLive_withAnnals, lineage_withAnnals, issued_withAnnals]
  split
  · split <;> simp
  · split <;> simp

/-- A task that is live is joined without a look at the records. -/
theorem join_withAnnals (id : TaskId) {target : TaskId}
    (hrecord : s.isLive target = false → (s.withAnnals a).settled? target = s.settled? target) :
    (s.withAnnals a).join id target = refiled a (s.join id target) := by
  unfold join
  rw [isLive_withAnnals, issued_withAnnals]
  cases hl : s.isLive target with
  | true => simp
  | false =>
    rw [hrecord hl]
    cases s.settled? target with
    | some record => simp
    | none => cases s.issued target <;> simp

@[simp] theorem addBranches_withAnnals (s : Scheduler P R W) (a : Annals P W) (owner : TaskId)
    (group : GroupId) (mode : GroupMode) (slot : Nat) (effects : List (Effect P W)) :
    (s.withAnnals a).addBranches owner group mode slot effects =
      ((s.addBranches owner group mode slot effects).1,
        (s.addBranches owner group mode slot effects).2.withAnnals a) := by
  induction effects generalizing s slot with
  | nil => rfl
  | cons effect rest ih => simp [addBranches, ih]

@[simp] theorem startGroup_withAnnals (s : Scheduler P R W) (a : Annals P W) (id : TaskId)
    (mode : GroupMode) (effects : List (Effect P W)) :
    (s.withAnnals a).startGroup id mode effects =
      (s.startGroup id mode effects).withAnnals a := by
  unfold startGroup
  split
  · rfl
  · have hnext : { s.withAnnals a with nextGroup := (s.withAnnals a).nextGroup + 1 } =
        { s with nextGroup := s.nextGroup + 1 }.withAnnals a := rfl
    dsimp only
    rw [hnext, addBranches_withAnnals]
    rfl

theorem channelTake_withAnnals (s : Scheduler P R W) (a : Annals P W) (id : TaskId)
    (channel : ChannelId) :
    (s.withAnnals a).channelTake id channel = refiled a (s.channelTake id channel) := by
  have hchannel : (s.withAnnals a).channels.find? channel = s.channels.find? channel := rfl
  unfold channelTake
  rw [hchannel]
  cases s.channels.find? channel with
  | none => rfl
  | some c =>
    dsimp only
    split <;> rfl

theorem channelPut_withAnnals (s : Scheduler P R W) (a : Annals P W) (id : TaskId)
    (channel : ChannelId) (v : Value) :
    (s.withAnnals a).channelPut id channel v = refiled a (s.channelPut id channel v) := by
  have hchannel : (s.withAnnals a).channels.find? channel = s.channels.find? channel := rfl
  unfold channelPut
  rw [hchannel]
  cases s.channels.find? channel with
  | none => rfl
  | some c =>
    dsimp only
    split <;> rfl

theorem channelClose_withAnnals (s : Scheduler P R W) (a : Annals P W) (id : TaskId)
    (channel : ChannelId) :
    (s.withAnnals a).channelClose id channel = refiled a (s.channelClose id channel) := by
  have hchannel : (s.withAnnals a).channels.find? channel = s.channels.find? channel := rfl
  unfold channelClose
  rw [hchannel]
  cases s.channels.find? channel with
  | none => rfl
  | some c => simp

/-- An effect is carried out the same way if a look at the records, where there is one, finds the
same. -/
theorem carryOut_withAnnals (h : Host P R W) (c : Config) (id : TaskId) {effect : Effect P W}
    (hrecord : ∀ target, effect = .join target → s.isLive target = false →
      (s.withAnnals a).settled? target = s.settled? target) :
    (s.withAnnals a).carryOut (h.withConfig c) id effect =
      refiled a (s.carryOut h id effect) := by
  cases effect with
  | call operation args => exact congrArg Except.ok (call_withAnnals ..)
  | callProcess process args =>
    exact congrArg Except.ok (callProcess_withAnnals s a h id process args)
  | put n => exact congrArg Except.ok (put_withAnnals s a h id n)
  | take pattern =>
    cases pattern with
    | channel channel => exact channelTake_withAnnals ..
    | _ => rfl
  | fork process args => exact congrArg Except.ok (fork_withAnnals s a h id process args)
  | join target => exact join_withAnnals id (hrecord target rfl)
  | cancel target => exact cancel_withAnnals ..
  | cancelled => rfl
  | all effects => exact congrArg Except.ok (startGroup_withAnnals ..)
  | race branches => exact congrArg Except.ok (startGroup_withAnnals ..)
  | channel policy => rfl
  | channelTake channel => exact channelTake_withAnnals ..
  | channelPut channel v => exact channelPut_withAnnals ..
  | channelClose channel => exact channelClose_withAnnals ..
  | select selector => rfl

/-- To carry out an effect is not to write anything down. -/
theorem annals_carryOut {id : TaskId} {effect : Effect P W}
    (hs : s.carryOut h id effect = .ok s') : s'.annals = s.annals := by
  have hsame : s.carryOut h id effect = refiled s.annals (s.carryOut h id effect) :=
    carryOut_withAnnals (s := s) (a := s.annals) h h.config id fun _ _ _ => rfl
  rw [hs, refiled_ok, Except.ok.injEq] at hsame
  rw [hsame, annals_withAnnals]

/-! ## Completions -/

@[simp] theorem applyCompletion_withAnnals (s : Scheduler P R W) (a : Annals P W) (c : Completion) :
    (s.withAnnals a).applyCompletion c =
      ((s.applyCompletion c).1, (s.applyCompletion c).2.withAnnals a) := by
  have hawait : (s.withAnnals a).pending = s.pending := rfl
  unfold applyCompletion
  rw [hawait]
  cases s.pending.awaited.find? c.operation with
  | some owner =>
    dsimp only
    have hwait : { s.withAnnals a with pending := s.pending.discard c.operation }.wait? owner =
        { s with pending := s.pending.discard c.operation }.wait? owner := rfl
    rw [hwait]
    split <;> rfl
  | none =>
    dsimp only
    split <;> rfl

@[simp] theorem receive_withAnnals (s : Scheduler P R W) (a : Annals P W) (c : Completion)
    (rest : List Completion) : (s.withAnnals a).receive c rest =
      ((s.receive c rest).1, (s.receive c rest).2.withAnnals a) :=
  applyCompletion_withAnnals { s with pending := { s.pending with inbox := rest } } a c

@[simp] theorem takeFault_withAnnals (s : Scheduler P R W) (a : Annals P W) :
    (s.withAnnals a).takeFault = (s.takeFault.1, s.takeFault.2.withAnnals a) := by
  have hfault : (s.withAnnals a).fault = s.fault := rfl
  unfold takeFault
  rw [hfault]
  cases s.fault <;> rfl

end Scheduler

end CoopTasks

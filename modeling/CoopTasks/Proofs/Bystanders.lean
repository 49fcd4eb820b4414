import CoopTasks.Proofs.Channels
import CoopTasks.Proofs.Clock
import CoopTasks.Proofs.Signals

/-!
# Those who stand by

A cancellation takes the tasks of a tree off the queue and off whatever they wait for. Those who
stand beside the tree keep their records and their places. Completions alone are withdrawn by their
number: if a task of the tree waits for an operation that another task owns, which happens if an
operation hands out a number that is not its own, the owner loses it too and waits in vain.
-/

namespace CoopTasks

theorem Table.find?_filter {K V : Type} [DecidableEq K] (t : Table K V) (k : K) (p : K → Bool) :
    Table.find? ⟨t.entries.filter fun entry => p entry.1⟩ k =
      if p k then t.find? k else none := by
  simp only [Table.find?, List.find?_filter]
  split
  · rename_i hk
    congr 2
    funext entry
    by_cases heq : entry.1 = k <;> simp [heq, hk]
  · rename_i hk
    rw [Option.map_eq_none_iff, List.find?_eq_none]
    rintro entry - hboth
    simp only [decide_eq_true_eq] at hboth
    exact hk (hboth.2 ▸ hboth.1)

namespace Channel

theorem without_eq (c : Channel) (tasks : List TaskId) : c.without tasks =
    { c with
      takers := c.takers.filter (· ∉ tasks)
      putters := c.putters.filter (·.1 ∉ tasks) } := by
  induction tasks generalizing c with
  | nil => simp
  | cons task rest ih =>
    rw [show c.without (task :: rest) = (c.withdraw task).without rest from rfl, ih]
    simp [withdraw, List.filter_filter, Bool.and_comm]

/-- Nothing happens to a channel when one is withdrawn who is not there. -/
theorem withdraw_of_not_mem {c : Channel} {task : TaskId} (htakers : task ∉ c.takers)
    (hputters : task ∉ c.putters.map Prod.fst) : c.withdraw task = c := by
  have ht : c.takers.filter (· ≠ task) = c.takers := by
    refine List.filter_eq_self.2 fun j hj => decide_eq_true ?_
    rintro rfl
    exact htakers hj
  have hp : c.putters.filter (·.1 ≠ task) = c.putters := by
    refine List.filter_eq_self.2 fun x hx => decide_eq_true ?_
    rintro rfl
    exact hputters (List.mem_map_of_mem hx)
  simp only [withdraw, ht, hp]

end Channel

namespace Scheduler

variable {P R W : Type} {s s' r : Scheduler P R W} {h : Host P R W} {L : Set TaskId}
variable {id root : TaskId} {ids ids' : List TaskId} {t : Task P R W}
variable {log : List (Scheduler P R W × Move P)}

/-! ## Withdrawal from every table -/

/-- What is pending once nobody in the list waits for anything. -/
def pendingWithout (s : Scheduler P R W) (ids : List TaskId) : Pending :=
  { s.pending with
    awaited := ⟨s.pending.awaited.entries.filter fun entry =>
      ids.all fun j => s.wait? j ≠ some (.operation entry.1)⟩
    timers := s.pending.timers.filter fun timer =>
      ids.all fun j => s.wait? j ≠ some (.operation timer.2) }

/-- Tasks are taken off whatever they wait for, and no others are. -/
structure Withdraws (s s' : Scheduler P R W) (ids : List TaskId) : Prop where
  others : ∀ j, j ∉ ids → s'.task? j = (s.task? j).map fun t =>
    { t with joiners := t.joiners.filter (· ∉ ids) }
  joiners : ∀ j, s'.waiters (.join j) = (s.waiters (.join j)).filter (· ∉ ids)
  queue : s'.queue.filter (·.1 ∉ ids) = s.queue.filter (·.1 ∉ ids)
  takers : s'.takers = s.takers.filter (·.1 ∉ ids)
  channels : ∀ c, s'.channels.find? c = (s.channels.find? c).map (·.without ids)
  groups : ∀ g, s'.groups.find? g = (s.groups.find? g).filter fun group => group.owner ∉ ids
  pending : s'.pending = s.pendingWithout ids

theorem Withdraws.refl (s : Scheduler P R W) : Withdraws s s [] := by
  refine ⟨fun j _ => ?_, by simp, rfl, by simp, fun c => ?_, fun g => ?_, by simp [pendingWithout]⟩
  · cases s.task? j <;> simp
  · cases s.channels.find? c <;> rfl
  · cases s.groups.find? g <;> rfl

theorem Withdraws.wait? (hs : Withdraws s s' ids) {j : TaskId} (hj : j ∉ ids) :
    s'.wait? j = s.wait? j := by
  simp [Scheduler.wait?, hs.others j hj, Function.comp_def]

theorem filter_not_mem_append {α : Type} (f : α → TaskId) (ids ids' : List TaskId) (l : List α) :
    (l.filter (f · ∉ ids)).filter (f · ∉ ids') = l.filter (f · ∉ ids ++ ids') := by
  simp [List.filter_filter, Bool.and_comm]

/-- Tasks that have been withdrawn are followed by others. -/
theorem Withdraws.trans (hs : Withdraws s r ids) (hs' : Withdraws r s' ids')
    (hapart : ids.Disjoint ids') : Withdraws s s' (ids ++ ids') := by
  have hwait : ∀ j ∈ ids', r.wait? j = s.wait? j := fun j hj =>
    hs.wait? fun hm => hapart hm hj
  refine ⟨fun j hj => ?_, fun j => ?_, ?_, ?_, fun c => ?_, fun g => ?_, ?_⟩
  · rw [List.mem_append, not_or] at hj
    rw [hs'.others j hj.2, hs.others j hj.1, Option.map_map]
    congr 1
    funext t
    exact congrArg (fun joiners => { t with joiners }) (filter_not_mem_append (·) ids ids' _)
  · rw [hs'.joiners, hs.joiners]
    exact filter_not_mem_append (·) ids ids' _
  · have hfirst := congrArg (List.filter fun x => x.1 ∉ ids') hs.queue
    have hlast := congrArg (List.filter fun x => x.1 ∉ ids) hs'.queue
    rw [filter_not_mem_append Prod.fst, filter_not_mem_append Prod.fst] at hfirst hlast
    rw [← hfirst]
    simpa [and_comm] using hlast
  · rw [hs'.takers, hs.takers]
    exact filter_not_mem_append Prod.fst ids ids' _
  · rw [hs'.channels, hs.channels, Option.map_map]
    congr 1
    funext channel
    exact (channel.without_append ids ids').symm
  · rw [hs'.groups, hs.groups, Option.filter_filter]
    congr 1
    funext group
    simp
  · have hall : ∀ op, (ids'.all fun j => r.wait? j ≠ some (.operation op)) =
        ids'.all fun j => s.wait? j ≠ some (.operation op) := fun op => by
      rw [Bool.eq_iff_iff]
      simp only [List.all_eq_true]
      exact forall₂_congr fun j hj => by rw [hwait j hj]
    rw [hs'.pending]
    simp only [pendingWithout, hs.pending, List.filter_filter, List.all_append, hall,
      Bool.and_comm]

theorem Withdraws.congr (hs : Withdraws s s' ids) (hids : ∀ j, j ∈ ids ↔ j ∈ ids') :
    Withdraws s s' ids' := by
  obtain ⟨hothers, hjoiners, hqueue, htakers, hchannels, hgroups, hpending⟩ := hs
  have hall : ∀ p : TaskId → Bool, ids.all p = ids'.all p := fun p => by
    rw [Bool.eq_iff_iff]
    simp only [List.all_eq_true, hids]
  simp only [Channel.without_eq, pendingWithout, hids, hall] at *
  exact ⟨hothers, hjoiners, hqueue, htakers, fun c => by simp only [hchannels, Channel.without_eq],
    hgroups, hpending⟩

/-! ## One signal -/

theorem filter_of_not_mem {α : Type} (f : α → TaskId) {l : List α} (hid : id ∉ l.map f) :
    l.filter (f · ∉ [id]) = l := by
  refine List.filter_eq_self.2 fun x hx => decide_eq_true fun hm => hid ?_
  exact List.mem_singleton.1 hm ▸ List.mem_map_of_mem hx

theorem task?_mark_of_ne (s : Scheduler P R W) {j : TaskId} (hj : j ≠ id) (t : Task P R W)
    (wait : Wait) : (s.mark id t wait).task? j = if t.wait = .join j then
      (s.task? j).map fun t => { t with joiners := t.joiners.filter (· ≠ id) } else s.task? j := by
  have hmark : (s.mark id t wait).task? j = ((s.updateTask id fun t =>
      { t with cancelling := true, wait }).withdraw id t.wait).task? j := rfl
  rw [hmark]
  cases t.wait with
  | join target =>
    by_cases hjoin : target = j
    · simp [withdraw, hjoin, hj]
    · simp [withdraw, hjoin, hj, Ne.symm hjoin]
  | _ => simp [withdraw, task?, updateTask, hj]

theorem waiters_join_mark
    (hgroup : ∀ g group, t.wait = .group g → s.groups.find? g = some group → group.owner = id)
    (hplace : ∀ w, w ≠ .nothing → w ≠ t.wait → id ∉ s.waiters w) (wait : Wait) (j : TaskId) :
    (s.mark id t wait).waiters (.join j) = (s.waiters (.join j)).filter (· ≠ id) := by
  have hoff := not_mem_waiters_mark s id t wait hgroup hplace (.join j)
  have hmark : (s.mark id t wait).waiters (.join j) = ((s.updateTask id fun t =>
      { t with cancelling := true, wait }).withdraw id t.wait).waiters (.join j) :=
    (waiters_unqueue _ id (.join j)).trans (if_neg (by simp))
  have hsame := waiters_updateTask s id (fun t => { t with cancelling := true, wait })
    (fun _ => rfl) (.join j)
  rw [hmark] at hoff ⊢
  rcases waiters_withdraw (s.updateTask id fun t => { t with cancelling := true, wait }) id t.wait
    hgroup (.join j) with heq | heq
  · rw [heq, hsame] at hoff ⊢
    refine (List.filter_eq_self.2 fun i hi => decide_eq_true ?_).symm
    rintro rfl
    exact hoff hi
  · rw [heq, hsame]

theorem takers_mark (s : Scheduler P R W) (id : TaskId) (t : Task P R W) (wait : Wait) :
    (s.mark id t wait).takers =
      if t.wait = .take then s.takers.filter (·.1 ≠ id) else s.takers := by
  have hmark : (s.mark id t wait).takers = ((s.updateTask id fun t =>
      { t with cancelling := true, wait }).withdraw id t.wait).takers := rfl
  rw [hmark]
  cases t.wait <;> rfl

theorem find_channels_mark (s : Scheduler P R W) (id : TaskId) (t : Task P R W) (wait : Wait)
    (c : ChannelId) : (s.mark id t wait).channels.find? c =
      if t.wait = .channelTake c ∨ t.wait = .channelPut c then
        (s.channels.find? c).map (·.withdraw id)
      else s.channels.find? c := by
  have hmark : (s.mark id t wait).channels = ((s.updateTask id fun t =>
      { t with cancelling := true, wait }).withdraw id t.wait).channels := rfl
  rw [hmark]
  cases t.wait with
  | channelTake d => simp [withdraw, updateTask, eq_comm]
  | channelPut d => simp [withdraw, updateTask, eq_comm]
  | _ => simp [withdraw, updateTask]

theorem pending_mark (ht : s.task? id = some t) (wait : Wait) :
    (s.mark id t wait).pending = s.pendingWithout [id] := by
  have hmark : (s.mark id t wait).pending = ((s.updateTask id fun t =>
      { t with cancelling := true, wait }).withdraw id t.wait).pending := rfl
  rw [hmark, pendingWithout]
  simp only [Scheduler.wait?, ht, List.all_cons, List.all_nil, Option.map_some]
  cases t.wait with
  | operation op => simp [withdraw, updateTask, Pending.discard, Table.erase, eq_comm]
  | _ => simp [withdraw, updateTask]

/-- A signal to a task that is not being cancelled takes it, and no other, off its place. -/
theorem Coherent.withdraws_mark (hc : Coherent s L ∅) (ht : s.task? id = some t)
    (hcalm : t.cancelling = false) (wait : Wait) : Withdraws s (s.mark id t wait) [id] := by
  obtain ⟨hgroup, hplace⟩ := hc.owner_of_wait (by simp) (hc.lost_of_calm ht hcalm) ht
  have hwait : s.wait? id = some t.wait := by simp [Scheduler.wait?, ht]
  constructor
  case others =>
    intro j hj
    rw [task?_mark_of_ne s (by simpa using hj)]
    split
    · simp
    · rename_i hjoin
      cases hu : s.task? j with
      | none => rfl
      | some u =>
        have hnot : id ∉ u.joiners.map (·) := by
          simpa [waiters, hu] using hplace (.join j) (by simp) (Ne.symm hjoin)
        simp only [Option.map_some, filter_of_not_mem _ hnot]
  case joiners =>
    intro j
    rw [waiters_join_mark hgroup hplace]
    simp
  case queue =>
    rw [queue_mark, List.filter_filter]
    refine List.filter_congr fun x _ => ?_
    simp
  case takers =>
    rw [takers_mark]
    split
    · simp
    · rename_i htake
      exact (filter_of_not_mem _ (hplace .take (by simp) (Ne.symm htake))).symm
  case channels =>
    intro c
    rw [find_channels_mark]
    split
    · rfl
    · rename_i hchannel
      rw [not_or] at hchannel
      cases hfind : s.channels.find? c with
      | none => rfl
      | some channel =>
        have htakers := hplace (.channelTake c) (by simp) (Ne.symm hchannel.1)
        have hputters := hplace (.channelPut c) (by simp) (Ne.symm hchannel.2)
        rw [waiters_channelTake hfind] at htakers
        rw [waiters_channelPut hfind] at hputters
        exact congrArg some (Channel.withdraw_of_not_mem htakers hputters).symm
  case groups =>
    intro g
    rw [groups_mark]
    split
    · rename_i hg
      cases hfind : s.groups.find? g with
      | none => rfl
      | some group => simp [Option.filter, hgroup g group hg hfind]
    · rename_i hg
      cases hfind : s.groups.find? g with
      | none => rfl
      | some group =>
        have howner : id ≠ group.owner := by
          simpa [waiters, hfind] using hplace (.group g) (by simp) (Ne.symm hg)
        simp [Option.filter, Ne.symm howner]
  case pending => exact pending_mark ht wait

theorem Withdraws.enqueueFirst (hs : Withdraws s s' ids) (hid : id ∈ ids) (input : Input) :
    Withdraws s (s'.enqueueFirst id input) ids :=
  ⟨hs.others, hs.joiners, by simpa [Scheduler.enqueueFirst, hid] using hs.queue, hs.takers,
    hs.channels, hs.groups, hs.pending⟩

theorem Coherent.withdraws_signal (hc : Coherent s L ∅) (hl : s.isLive id) :
    Withdraws s (s.signal id) (s.calm [id]) := by
  obtain ⟨t, ht⟩ : ∃ t, s.task? id = some t := Option.isSome_iff_exists.1 hl
  by_cases hcalm : s.beingCancelled id = true
  · rw [signal_of_cancelled hcalm]
    simpa [calm, hcalm] using Withdraws.refl s
  · have hids : s.calm [id] = [id] := by simp [calm, hcalm]
    have hflag : t.cancelling = false := by simpa [beingCancelled_eq ht] using hcalm
    rw [hids, Scheduler.signal]
    simp only [ht, hflag, Bool.false_eq_true, if_false]
    split
    · exact (hc.withdraws_mark ht hflag .nothing).enqueueFirst (List.mem_singleton.2 rfl) _
    · exact hc.withdraws_mark ht hflag .children

/-- The signals to live tasks take those off their places that were not signalled before. -/
theorem Coherent.withdraws_foldl (ids : List TaskId) (s : Scheduler P R W)
    (hc : Coherent s L ∅) (hnodup : ids.Nodup) (hlive : ∀ id ∈ ids, s.isLive id) :
    Withdraws s (ids.foldl Scheduler.signal s) (s.calm ids) := by
  induction ids generalizing s with
  | nil => exact .refl s
  | cons id rest ih =>
    obtain ⟨hid, hrest⟩ := List.nodup_cons.1 hnodup
    have hne : ∀ j ∈ rest, j ≠ id := fun j hj he => hid (he ▸ hj)
    have hcalm : (s.signal id).calm rest = s.calm rest :=
      List.filter_congr fun j hj => by rw [beingCancelled_signal_of_ne s (hne j hj)]
    have hlive' : ∀ j ∈ rest, (s.signal id).isLive j := fun j hj => by
      rw [(quiet_signal s id).tree.isLive]
      exact hlive j (List.mem_cons_of_mem _ hj)
    have hc' : Coherent (s.signal id) L ∅ :=
      (hc.signal (by simp) id).1.congr_hand (by simp)
    have hapart : (s.calm [id]).Disjoint (s.calm rest) := fun j hj hj' =>
      hne j (List.mem_of_mem_filter hj') (List.mem_singleton.1 (List.mem_of_mem_filter hj))
    have htail := ih (s.signal id) hc' hrest hlive'
    rw [hcalm] at htail
    rw [calm_cons s id rest]
    exact (hc.withdraws_signal (hlive id List.mem_cons_self)).trans htail hapart

/-! ## Who is spared -/

theorem Run.withdraws (run : Run h log s) (root : TaskId) :
    Withdraws s (s.cancelSubtree root) (s.calm (s.subtree root)) := by
  have hf := run.tidy.forest
  have hlive : ∀ id ∈ (s.subtree root).reverse, s.isLive id := fun id hid =>
    hf.isLive_of_mem_subtree (List.mem_reverse.1 hid)
  have hnodup := List.nodup_reverse.2 (hf.postOrder.nodup root)
  refine (run.coherent.withdraws_foldl _ s hnodup hlive).congr fun j => ?_
  simp [calm]

/-- Those outside a tree keep their records, but for the joiners that belong to the tree, and their
places among each other in every table. -/
structure Spares (s s' : Scheduler P R W) (tree : List TaskId) : Prop where
  record : ∀ id t, id ∉ tree → s.task? id = some t →
    ∃ joiners, s'.task? id = some { t with joiners }
  queue : s'.queue.filter (·.1 ∉ tree) = s.queue.filter (·.1 ∉ tree)
  takers : s'.takers.filter (·.1 ∉ tree) = s.takers.filter (·.1 ∉ tree)
  joiners : ∀ target, (s'.waiters (.join target)).filter (· ∉ tree) =
    (s.waiters (.join target)).filter (· ∉ tree)
  channels : ∀ c channel, s.channels.find? c = some channel →
    ∃ takers putters, s'.channels.find? c = some { channel with takers, putters } ∧
      takers.filter (· ∉ tree) = channel.takers.filter (· ∉ tree) ∧
      putters.filter (·.1 ∉ tree) = channel.putters.filter (·.1 ∉ tree)
  groups : ∀ g group, s.groups.find? g = some group → group.owner ∉ tree →
    s'.groups.find? g = some group

theorem filter_filter_of_subset {α : Type} (f : α → TaskId) {tree : List TaskId}
    (hsub : ids ⊆ tree) (l : List α) :
    (l.filter (f · ∉ ids)).filter (f · ∉ tree) = l.filter (f · ∉ tree) := by
  rw [List.filter_filter]
  refine List.filter_congr fun x _ => ?_
  by_cases hx : f x ∈ tree
  · simp [hx]
  · have hids : f x ∉ ids := fun hm => hx (hsub hm)
    simp [hx, hids]

theorem Withdraws.spares {tree : List TaskId} (hs : Withdraws s s' ids) (hsub : ids ⊆ tree) :
    Spares s s' tree := by
  refine ⟨fun id t hid ht => ⟨_, by rw [hs.others id fun hm => hid (hsub hm), ht]; rfl⟩, ?_, ?_,
    fun target => ?_, fun c channel hfind => ?_, fun g group hfind howner => ?_⟩
  · have hqueue := congrArg (List.filter (·.1 ∉ tree)) hs.queue
    rwa [filter_filter_of_subset Prod.fst hsub, filter_filter_of_subset Prod.fst hsub] at hqueue
  · rw [hs.takers]
    exact filter_filter_of_subset Prod.fst hsub _
  · rw [hs.joiners]
    exact filter_filter_of_subset (·) hsub _
  · refine ⟨_, _, by rw [hs.channels, hfind, Option.map_some, Channel.without_eq], ?_, ?_⟩
    · exact filter_filter_of_subset (·) hsub _
    · exact filter_filter_of_subset Prod.fst hsub _
  · have hids : group.owner ∉ ids := fun hm => howner (hsub hm)
    rw [hs.groups, hfind]
    simp [Option.filter, hids]

/-- An operation is still to come unless one of the tasks waits for it. -/
theorem Withdraws.awaited (hs : Withdraws s s' ids) (op : OperationId) :
    s'.pending.awaited.find? op = if ∃ j ∈ ids, s.wait? j = some (.operation op) then none
      else s.pending.awaited.find? op := by
  rw [hs.pending, pendingWithout, Table.find?_filter s.pending.awaited op fun k =>
    ids.all fun j => s.wait? j ≠ some (.operation k)]
  by_cases hw : ∃ j ∈ ids, s.wait? j = some (.operation op)
  · rw [if_pos hw, if_neg (by simpa using hw)]
  · rw [if_neg hw, if_pos (by simpa using hw)]

/-- The timers of an operation are withdrawn with it. -/
theorem Withdraws.timers (hs : Withdraws s s' ids) (op : OperationId) :
    s'.pending.timers.filter (·.2 = op) = if ∃ j ∈ ids, s.wait? j = some (.operation op) then []
      else s.pending.timers.filter (·.2 = op) := by
  have hkept : ∀ timer : Nat × OperationId, timer.2 = op →
      ((ids.all fun j => s.wait? j ≠ some (.operation timer.2)) ↔
        ¬∃ j ∈ ids, s.wait? j = some (.operation op)) := by
    rintro timer rfl
    simp
  rw [hs.pending, pendingWithout, List.filter_filter]
  split
  · rename_i hw
    refine List.filter_eq_nil_iff.2 fun timer _ hboth => ?_
    rw [Bool.and_eq_true, decide_eq_true_eq] at hboth
    exact (hkept timer hboth.1).1 hboth.2 hw
  · rename_i hw
    refine List.filter_congr fun timer _ => ?_
    by_cases hop : timer.2 = op
    · rw [(hkept timer hop).2 hw, Bool.and_true]
    · rw [decide_eq_false hop, Bool.false_and]

/-- Cancelling a tree disturbs nobody beside it, with one exception: who owns an operation and waits
for it loses the operation if and only if a task of the tree that was not being cancelled waits for
that operation too. The timer of an operation stays as long as the operation does. -/
theorem Run.spares_bystanders (run : Run h log s) (root : TaskId) :
    Spares s (s.cancelSubtree root) (s.subtree root) ∧
    ∀ id op, id ∉ s.subtree root → s.wait? id = some (.operation op) →
      s.pending.awaited.find? op = some id →
      ((s.cancelSubtree root).pending.awaited.find? op = some id ↔
        ∀ j ∈ s.calm (s.subtree root), s.wait? j ≠ some (.operation op)) ∧
      (s.cancelSubtree root).pending.timers.filter (·.2 = op) =
        if (s.cancelSubtree root).pending.awaited.find? op = some id
        then s.pending.timers.filter (·.2 = op) else [] := by
  have hs := run.withdraws root
  refine ⟨hs.spares (List.filter_subset_self _), fun id op _ _ hfind => ?_⟩
  rw [hs.timers op, hs.awaited op, hfind]
  by_cases hw : ∃ j ∈ s.calm (s.subtree root), s.wait? j = some (.operation op)
  · simp [hw]
  · have hnone : ∀ j ∈ s.calm (s.subtree root), s.wait? j ≠ some (.operation op) :=
      fun j hj heq => hw ⟨j, hj, heq⟩
    simp only [if_neg hw, if_true]
    exact ⟨iff_of_true trivial hnone, trivial⟩

/-- Scripts that call operations. -/
inductive Errand where
  /-- Calls an operation that the host completes. -/
  | client
  /-- Calls an operation that answers with the first number, whoever that belongs to. -/
  | intruder
  /-- Calls an operation that the clock completes. -/
  | sleeper

def Errand.effects : Errand → List (Effect Errand Unit)
  | .client => [.call ⟨"deferred", fun _ _ w => .defer fun id => .await id w⟩ []]
  | .intruder => [.call ⟨"borrowed", fun _ _ w => .await ⟨1⟩ w⟩ []]
  | .sleeper => [.call ⟨"nap", fun _ _ w => .timer 5 fun id => .await id w⟩ []]

def office : Host Errand Unit Unit where
  program := ⟨fun _ => "errand", fun p => .script p.effects,
    fun state _ w => (.done .unit, state, w)⟩

/-- A client and an intruder wait for the same operation, and a sleeper for one of its own. -/
def shared : Scheduler Errand Unit Unit :=
  moves { world := () } office
    [.enroll .client [], .step, .enroll .intruder [], .step, .enroll .sleeper [], .step]

theorem shared_run : ∃ log, Run office log shared := by
  have hnew : Run office [] (({ world := () } : Scheduler Errand Unit Unit)) := .new rfl
  exact ⟨_, hnew.moves _⟩

/-- The client keeps its operation when the sleeper is cancelled. It loses it with the intruder, but
the sleeper keeps its own then, and the timer. -/
theorem spares_bystanders_shared :
    (shared.cancelSubtree ⟨3⟩).pending.awaited.find? ⟨1⟩ = some ⟨1⟩ ∧
    (shared.cancelSubtree ⟨2⟩).pending.awaited.find? ⟨1⟩ ≠ some ⟨1⟩ ∧
    (shared.cancelSubtree ⟨2⟩).pending.awaited.find? ⟨2⟩ = some ⟨3⟩ ∧
    (shared.cancelSubtree ⟨2⟩).pending.timers.filter (·.2 = ⟨2⟩) = [(5, ⟨2⟩)] := by
  obtain ⟨log, run⟩ := shared_run
  obtain ⟨hclient, -⟩ := (run.spares_bystanders ⟨3⟩).2 ⟨1⟩ ⟨1⟩ (by decide) rfl rfl
  obtain ⟨hrobbed, -⟩ := (run.spares_bystanders ⟨2⟩).2 ⟨1⟩ ⟨1⟩ (by decide) rfl rfl
  obtain ⟨hsleeper, htimer⟩ := (run.spares_bystanders ⟨2⟩).2 ⟨3⟩ ⟨2⟩ (by decide) rfl rfl
  have hkept := hsleeper.2 (by decide)
  refine ⟨hclient.2 (by decide), fun hstays => hrobbed.1 hstays ⟨2⟩ (by decide) rfl, hkept, ?_⟩
  exact htimer.trans (if_pos hkept)

/-- A task beside a cancelled tree may lose the operation that it owns and waits for. -/
theorem bystander_robbed :
    ¬∀ (log : List (Scheduler Errand Unit Unit × Move Errand)) (s : Scheduler Errand Unit Unit)
      (root id : TaskId) (op : OperationId), Run office log s → s.isLive root →
      id ∉ s.subtree root → s.wait? id = some (.operation op) →
      s.pending.awaited.find? op = some id →
      (s.cancelSubtree root).pending.awaited.find? op = some id := by
  intro hall
  obtain ⟨log, run⟩ := shared_run
  have hkept := hall log shared ⟨2⟩ ⟨1⟩ ⟨1⟩ run rfl (by decide) rfl rfl
  have hgone : ((shared.cancelSubtree ⟨2⟩).pending.awaited.find? ⟨1⟩).isNone := rfl
  simp [hkept] at hgone

end Scheduler

end CoopTasks

import CoopTasks.Proofs.Places
import Mathlib.Data.Set.Insert

/-!
# Coherence

Every task is at home: registered once under what it waits for, and nowhere else. While an operation
is under way some tasks are in hand, taken off one table and not yet entered in the next. `Coherent`
names them, the set `X`, and every operation says which it takes up and which it puts down. There
may also be tasks that are lost, the set `L`: running, as far as their record says, but in no queue.
-/

namespace CoopTasks

/-- What the record of a task says of its process. -/
structure Task.Fit {P R W : Type} (t : Task P R W) : Prop where
  ended : t.process = none ↔ t.wait = .children
  alive : t.process ≠ some .ended
  status : t.wait ≠ .nothing → t.status = .waiting

theorem Task.Fit.of_same {P R W : Type} {t t' : Task P R W} (h : t.Fit)
    (hp : t.process = t'.process) (hw : t.wait = t'.wait) (hs : t.status = t'.status) : t'.Fit :=
  ⟨hp ▸ hw ▸ h.ended, hp ▸ h.alive, hw ▸ hs ▸ h.status⟩

namespace Scheduler

variable {P R W : Type} {s s' : Scheduler P R W} {L X : Set TaskId}

def Called (s : Scheduler P R W) (child caller : TaskId) : Prop :=
  ∃ t, s.task? child = some t ∧ t.role = .called ∧ t.parent = some caller

/-- A task, or a number that no live task has, is registered where it should be. -/
structure Home (s : Scheduler P R W) (id : TaskId) : Prop where
  place : ∀ w, (s.waiters w).count id = if w.isListed ∧ s.wait? id = some w then 1 else 0
  call : ∀ child, s.wait? id = some (.call child) → Called s child id

/-- A live task is registered nowhere. -/
structure Loose (s : Scheduler P R W) (id : TaskId) : Prop where
  live : ∃ t, s.task? id = some t ∧ t.process.isSome
  place : ∀ w, id ∉ s.waiters w

/-- A task is registered nowhere, and nobody is going to resume it. -/
structure Lost (s : Scheduler P R W) (id : TaskId) : Prop where
  live : ∃ t, s.task? id = some t ∧ t.process.isSome ∧ t.cancelling = true ∧ t.wait = .nothing ∧
    t.status = .running
  place : ∀ w, id ∉ s.waiters w

/-- Channels and groups are numbered below the next number, and nobody waits at a closed channel. -/
structure Sound (s : Scheduler P R W) : Prop where
  channels : ∀ c channel, s.channels.find? c = some channel → c.val < s.nextChannel
  groups : ∀ g group, s.groups.find? g = some group → g.val < s.nextGroup
  closed : ∀ c channel, s.channels.find? c = some channel → channel.closed →
    channel.takers = [] ∧ channel.putters = []

/-- All tasks are at home but those that are lost or in hand. -/
structure Coherent (s : Scheduler P R W) (L X : Set TaskId) : Prop where
  home : ∀ id, id ∉ L → id ∉ X → Home s id
  loose : ∀ id ∈ X, Loose s id
  lost : ∀ id ∈ L, Lost s id
  apart : ∀ id ∈ X, id ∉ L
  fit : ∀ id t, s.task? id = some t → t.Fit
  sound : Sound s

/-- What is to be shown of a task that an operation takes up or puts down. -/
structure Placed (s : Scheduler P R W) (L X : Set TaskId) (id : TaskId) : Prop where
  apart : id ∉ L
  fit : ∀ t, s.task? id = some t → t.Fit
  loose : id ∈ X → Loose s id
  home : id ∉ X → Home s id

theorem Sound.of_tables (h : Sound s) (hchannels : s'.channels = s.channels)
    (hgroups : s'.groups = s.groups) (hnext : s'.nextChannel = s.nextChannel)
    (hnext' : s'.nextGroup = s.nextGroup) : Sound s' :=
  ⟨fun c channel hc => hnext ▸ h.channels c channel (hchannels ▸ hc),
    fun g group hg => hnext' ▸ h.groups g group (hgroups ▸ hg),
    fun c channel hc => h.closed c channel (hchannels ▸ hc)⟩

theorem SameTree.called (h : SameTree s s') (child caller : TaskId) (hc : Called s child caller) :
    Called s' child caller := by
  obtain ⟨t, ht, hrole, hparent⟩ := hc
  obtain ⟨t', ht', hs⟩ := h.find ht
  exact ⟨t', ht', (Task.role_of_still hs).trans hrole, (Task.parent_of_still hs).trans hparent⟩

/-- A change of a task that keeps its role and its parent. -/
theorem Called.updateTask {child caller : TaskId} (hc : Called s child caller) (id : TaskId)
    (f : Task P R W → Task P R W) (hrole : ∀ t, (f t).role = t.role)
    (hparent : ∀ t, (f t).parent = t.parent) : Called (s.updateTask id f) child caller := by
  obtain ⟨t, ht, htrole, htparent⟩ := hc
  by_cases hid : child = id
  · subst hid
    exact ⟨f t, by simp [ht], (hrole t).trans htrole, (hparent t).trans htparent⟩
  · exact ⟨t, by simp [hid, ht], htrole, htparent⟩

theorem Home.of_untouched {id : TaskId} (h : Home s id) (hu : Untouched s s' id)
    (hcalls : ∀ child, s.wait? id = some (.call child) → Called s child id → Called s' child id) :
    Home s' id := by
  refine ⟨fun w => by rw [hu.place, hu.wait?, h.place], fun child hw => ?_⟩
  rw [hu.wait?] at hw
  exact hcalls child hw (h.call child hw)

theorem not_mem_of_untouched {id : TaskId} (hu : Untouched s s' id) {w : Wait}
    (hplace : id ∉ s.waiters w) : id ∉ s'.waiters w := by
  rwa [← List.count_eq_zero, hu.place, List.count_eq_zero]

theorem Loose.of_untouched {id : TaskId} (h : Loose s id) (hu : Untouched s s' id) :
    Loose s' id := by
  obtain ⟨t, ht, hp⟩ := h.live
  obtain ⟨t', ht', hp', -⟩ := hu.symm.find ht
  exact ⟨⟨t', ht', hp' ▸ hp⟩, fun w => not_mem_of_untouched hu (h.place w)⟩

theorem Lost.of_untouched {id : TaskId} (h : Lost s id) (hu : Untouched s s' id) : Lost s' id := by
  obtain ⟨t, ht, hp, hc, hw, hs⟩ := h.live
  obtain ⟨t', ht', hp', hw', hs', hc'⟩ := hu.symm.find ht
  exact ⟨⟨t', ht', hp' ▸ hp, hc' ▸ hc, hw' ▸ hw, hs' ▸ hs⟩,
    fun w => not_mem_of_untouched hu (h.place w)⟩

/-- An operation has to account for the tasks that it touches only. -/
theorem Coherent.change {X' : Set TaskId} (hc : Coherent s L X) (touched : Set TaskId)
    (hsound : Sound s')
    (hcalls : ∀ id, id ∉ touched → ∀ child, s.wait? id = some (.call child) → Called s child id →
      Called s' child id)
    (hrest : ∀ id, id ∉ touched → Untouched s s' id)
    (hsame : ∀ id, id ∉ touched → (id ∈ X' ↔ id ∈ X))
    (htouched : ∀ id ∈ touched, Placed s' L X' id) : Coherent s' L X' := by
  refine ⟨?_, ?_, ?_, ?_, ?_, hsound⟩
  · intro id hlost hhand
    by_cases ht : id ∈ touched
    · exact (htouched id ht).home hhand
    · have hhome := hc.home id hlost (by rwa [← hsame id ht])
      exact hhome.of_untouched (hrest id ht) (hcalls id ht)
  · intro id hhand
    by_cases ht : id ∈ touched
    · exact (htouched id ht).loose hhand
    · exact (hc.loose id ((hsame id ht).1 hhand)).of_untouched (hrest id ht)
  · intro id hlost
    have ht : id ∉ touched := fun ht => (htouched id ht).apart hlost
    exact (hc.lost id hlost).of_untouched (hrest id ht)
  · intro id hhand
    by_cases ht : id ∈ touched
    · exact (htouched id ht).apart
    · exact hc.apart id ((hsame id ht).1 hhand)
  · intro id t hid
    by_cases ht : id ∈ touched
    · exact (htouched id ht).fit t hid
    · obtain ⟨u, hu, hp, hw, hs, -⟩ := (hrest id ht).find hid
      exact (hc.fit id u hu).of_same hp hw hs

theorem Coherent.congr_hand {X' : Set TaskId} (hc : Coherent s L X) (hX : ∀ id, id ∈ X ↔ id ∈ X') :
    Coherent s L X' :=
  (Set.ext hX : X = X') ▸ hc

theorem Coherent.congr_lost {L' : Set TaskId} (hc : Coherent s L X) (hL : ∀ id, id ∈ L ↔ id ∈ L') :
    Coherent s L' X :=
  (Set.ext hL : L = L') ▸ hc

/-- Of one task that may be lost it is known that it is not. -/
theorem Coherent.spare {id : TaskId} {Q : TaskId → Prop} (hc : Coherent s L X) (hid : ¬Q id) :
    Coherent s (L ∪ {j | j = id ∧ Q j}) X := by
  refine hc.congr_lost fun j => ⟨Or.inl, ?_⟩
  rintro (hj | ⟨rfl, hj⟩)
  · exact hj
  · exact absurd hj hid

/-- An operation touches no task. -/
theorem Coherent.keep (hc : Coherent s L X) (hsound : Sound s')
    (htree : SameTree s s') (hrest : ∀ id, Untouched s s' id) : Coherent s' L X :=
  hc.change ∅ hsound (fun j _ child _ => htree.called child j) (fun id _ => hrest id)
    (fun _ _ => Iff.rfl) fun _ h => h.elim

theorem Coherent.of_tables (hc : Coherent s L X) (htasks : s'.tasks = s.tasks)
    (hqueue : s'.queue = s.queue) (htakers : s'.takers = s.takers)
    (hchannels : s'.channels = s.channels) (hgroups : s'.groups = s.groups)
    (htask : s'.nextTask = s.nextTask) (hchannel : s'.nextChannel = s.nextChannel)
    (hgroup : s'.nextGroup = s.nextGroup) : Coherent s' L X :=
  hc.keep (hc.sound.of_tables hchannels hgroups hchannel hgroup) (.of_tasks htasks htask)
    fun id => .of_tables htasks hqueue htakers hchannels hgroups id

/-- An operation puts down a task, wherever it was before. -/
theorem Coherent.putDown {id : TaskId} (hc : Coherent s L X) (hlost : id ∉ L) (hsound : Sound s')
    (hcalls : ∀ child caller, Called s child caller → Called s' child caller)
    (hrest : ∀ j, j ≠ id → Untouched s s' j)
    (hfit : ∀ t, s'.task? id = some t → t.Fit) (hhome : Home s' id) :
    Coherent s' L (X \ {id}) := by
  refine hc.change {id} hsound (fun j _ child _ => hcalls child j) hrest ?_ ?_
  · intro j hj
    simpa using fun _ => hj
  · rintro j rfl
    exact ⟨hlost, hfit, fun h => absurd rfl h.2, fun _ => hhome⟩

/-- An operation changes a task that stays in hand. -/
theorem Coherent.hold {id : TaskId} (hc : Coherent s L X) (hid : id ∈ X) (hsound : Sound s')
    (hcalls : ∀ child caller, Called s child caller → Called s' child caller)
    (hrest : ∀ j, j ≠ id → Untouched s s' j)
    (hfit : ∀ t, s'.task? id = some t → t.Fit) (hloose : Loose s' id) : Coherent s' L X := by
  refine hc.change {id} hsound (fun j _ child _ => hcalls child j) hrest (fun _ _ => Iff.rfl) ?_
  rintro j rfl
  exact ⟨hc.apart j hid, hfit, fun _ => hloose, fun h => absurd hid h⟩

/-- A task is at home under a listed wait. -/
theorem Home.of_place {id : TaskId} (wait : Wait) (hlisted : wait.isListed)
    (hwait : s.wait? id = some wait)
    (hplace : ∀ w, (s.waiters w).count id = if w = wait then 1 else 0) : Home s id := by
  refine ⟨fun w => ?_, fun child hw => ?_⟩
  · rw [hplace, hwait]
    by_cases hw : w = wait
    · simp [hw, hlisted]
    · simp [hw, Ne.symm hw]
  · rw [hwait, Option.some.injEq] at hw
    simp [hw, Wait.isListed] at hlisted

/-- A task is at home under a wait that is listed nowhere. -/
theorem Home.of_unlisted {id : TaskId} (wait : Wait) (hlisted : wait.isListed = false)
    (hwait : s.wait? id = some wait) (hplace : ∀ w, id ∉ s.waiters w)
    (hcall : ∀ child, wait = .call child → Called s child id) : Home s id := by
  refine ⟨fun w => ?_, fun child hw => hcall child ?_⟩
  · rw [List.count_eq_zero.2 (hplace w), hwait]
    by_cases hw : wait = w
    · simp [← hw, hlisted]
    · simp [hw]
  · rw [hwait] at hw
    exact Option.some.inj hw

/-! ## The queue -/

theorem Coherent.makeReady {id : TaskId} (hc : Coherent s L X) (hid : id ∈ X) :
    Coherent (s.makeReady id) L X := by
  obtain ⟨t, ht, hp⟩ := (hc.loose id hid).live
  refine hc.hold hid (hc.sound.of_tables rfl rfl rfl rfl) (quiet_makeReady s id).tree.called
    (fun j hj => untouched_makeReady s id hj) ?_ ⟨?_, fun w => ?_⟩
  · intro u hu
    obtain rfl : { t with wait := .nothing, status := .running } = u := by
      simpa [Scheduler.makeReady, ht] using hu
    exact ⟨by simpa using Option.isSome_iff_ne_none.1 hp, (hc.fit id t ht).alive,
      fun h => absurd rfl h⟩
  · exact ⟨{ t with wait := .nothing, status := .running }, by simp [Scheduler.makeReady, ht], hp⟩
  · rw [waiters_makeReady]
    exact (hc.loose id hid).place w

/-- A task in hand that waits for nothing is queued. -/
theorem Coherent.enqueue {id : TaskId} (hc : Coherent s L X) (hid : id ∈ X)
    (hwait : s.wait? id = some .nothing) (hsound : Sound s') (htree : SameTree s s')
    (htasks : s'.tasks = s.tasks) (hrest : ∀ j, j ≠ id → Untouched s s' j)
    (hplace : ∀ w, (s'.waiters w).count id =
      (s.waiters w).count id + if w = .nothing then 1 else 0) :
    Coherent s' L (X \ {id}) := by
  refine hc.putDown (hc.apart id hid) hsound htree.called hrest
    (fun t ht => hc.fit id t (by rwa [← task?_of_tasks htasks])) ?_
  refine .of_place .nothing rfl (by rwa [wait?, task?_of_tasks htasks]) fun w => ?_
  rw [hplace, List.count_eq_zero.2 ((hc.loose id hid).place w), Nat.zero_add]

theorem Coherent.enqueueFirst {id : TaskId} (hc : Coherent s L X) (hid : id ∈ X)
    (hwait : s.wait? id = some .nothing) (input : Input) :
    Coherent (s.enqueueFirst id input) L (X \ {id}) := by
  refine hc.enqueue hid hwait (hc.sound.of_tables rfl rfl rfl rfl)
    (quiet_enqueueFirst s id input).tree rfl (fun j hj => untouched_enqueueFirst s id input hj) ?_
  intro w
  rw [waiters_enqueueFirst]
  split <;> simp [*]

theorem Coherent.enqueueLast {id : TaskId} (hc : Coherent s L X) (hid : id ∈ X)
    (hwait : s.wait? id = some .nothing) (input : Input) :
    Coherent (s.enqueueLast id input) L (X \ {id}) := by
  refine hc.enqueue hid hwait (hc.sound.of_tables rfl rfl rfl rfl)
    (quiet_enqueueLast s id input).tree rfl (fun j hj => untouched_enqueueLast s id input hj) ?_
  intro w
  rw [waiters_enqueueLast]
  split <;> simp [*]

theorem wait?_makeReady (hc : Coherent s L X) {id : TaskId} (hid : id ∈ X) :
    (s.makeReady id).wait? id = some .nothing := by
  obtain ⟨t, ht, -⟩ := (hc.loose id hid).live
  simp [wait?, Scheduler.makeReady, ht]

theorem Coherent.wakeFirst {id : TaskId} (hc : Coherent s L X) (hid : id ∈ X) (input : Input) :
    Coherent (s.wakeFirst id input) L (X \ {id}) :=
  (hc.makeReady hid).enqueueFirst hid (wait?_makeReady hc hid) input

theorem Coherent.wakeLast {id : TaskId} (hc : Coherent s L X) (hid : id ∈ X) (input : Input) :
    Coherent (s.wakeLast id input) L (X \ {id}) :=
  (hc.makeReady hid).enqueueLast hid (wait?_makeReady hc hid) input

/-! ## Taking up and putting down -/

/-- Who is registered somewhere is at home there. -/
theorem Coherent.of_mem_waiters (hc : Coherent s L X) {id : TaskId} {w : Wait}
    (hm : id ∈ s.waiters w) :
    id ∉ L ∧ id ∉ X ∧ w.isListed ∧ s.wait? id = some w ∧ (s.waiters w).count id = 1 := by
  have hlost : id ∉ L := fun h => (hc.lost id h).place w hm
  have hhand : id ∉ X := fun h => (hc.loose id h).place w hm
  have hplace := (hc.home id hlost hhand).place w
  have hpos := List.count_pos_iff.2 hm
  by_cases hw : w.isListed ∧ s.wait? id = some w
  · rw [if_pos hw] at hplace
    exact ⟨hlost, hhand, hw.1, hw.2, hplace⟩
  · rw [if_neg hw] at hplace
    omega

theorem Coherent.process_of_wait (hc : Coherent s L X) {id : TaskId} {w : Wait}
    (hw : s.wait? id = some w) (hne : w ≠ .children) :
    ∃ t, s.task? id = some t ∧ t.process.isSome := by
  obtain ⟨t, ht, rfl⟩ := Option.map_eq_some_iff.1 hw
  refine ⟨t, ht, Option.isSome_iff_ne_none.2 fun hp => hne ((hc.fit id t ht).ended.1 hp)⟩

theorem Coherent.not_lost_of_wait (hc : Coherent s L X) {id : TaskId} {w : Wait}
    (hw : s.wait? id = some w) (hne : w ≠ .nothing) : id ∉ L := by
  intro hid
  obtain ⟨t, ht, -, -, hwait, -⟩ := (hc.lost id hid).live
  simp [wait?, ht, hwait] at hw
  exact hne hw.symm

/-- A task is registered under nothing but its own wait. -/
theorem Coherent.not_mem_waiters (hc : Coherent s L X) {id : TaskId} {w : Wait}
    (hw : s.wait? id ≠ some w ∨ w.isListed = false) : id ∉ s.waiters w := by
  intro hm
  obtain ⟨-, -, hlisted, hwait, -⟩ := hc.of_mem_waiters hm
  rcases hw with hw | hw
  · exact hw hwait
  · rw [hlisted] at hw
    cases hw

theorem Coherent.nodup_waiters (hc : Coherent s L X) (w : Wait) : (s.waiters w).Nodup := by
  rw [List.nodup_iff_count]
  intro id
  by_cases hm : id ∈ s.waiters w
  · exact Nat.le_of_eq (hc.of_mem_waiters hm).2.2.2.2
  · rw [List.count_eq_zero.2 hm]
    exact Nat.zero_le 1

/-- Tasks are taken off a table. -/
theorem Coherent.release {T : Set TaskId} (hc : Coherent s L X) (hsound : Sound s')
    (htasks : s'.tasks = s.tasks) (hnext : s'.nextTask = s.nextTask)
    (hrest : ∀ j, j ∉ T → ∀ w, (s'.waiters w).count j = (s.waiters w).count j)
    (hfrom : ∀ j ∈ T, ∃ w, j ∈ s.waiters w) (hoff : ∀ j ∈ T, ∀ w, j ∉ s'.waiters w) :
    Coherent s' L (X ∪ T) := by
  refine hc.change T hsound (fun j _ child _ => SameTree.called (.of_tasks htasks hnext) child j)
    (fun j hj => ⟨by rw [task?_of_tasks htasks], hrest j hj⟩) (fun j hj => by simp [hj]) ?_
  intro j hj
  obtain ⟨w, hm⟩ := hfrom j hj
  obtain ⟨hlost, -, hlisted, hw, -⟩ := hc.of_mem_waiters hm
  refine ⟨hlost, fun t ht => hc.fit j t (by rwa [← task?_of_tasks htasks]), fun _ => ?_,
    fun h => absurd (Or.inr hj) h⟩
  obtain ⟨t, ht, hp⟩ := hc.process_of_wait hw (by rintro rfl; cases hlisted)
  exact ⟨⟨t, by rwa [task?_of_tasks htasks], hp⟩, hoff j hj⟩

/-- The first of the queue is taken in hand. -/
theorem Coherent.pop {id : TaskId} {input : Input} {rest : List (TaskId × Input)}
    (hc : Coherent s L X) (hq : s.queue = (id, input) :: rest) :
    Coherent { s with queue := rest } L (X ∪ {id}) := by
  have hqueue : s.waiters .nothing = id :: rest.map Prod.fst := by simp [waiters, hq]
  have hother : ∀ w, w ≠ .nothing → waiters { s with queue := rest } w = s.waiters w := by
    intro w hw
    cases w <;> first | rfl | exact absurd rfl hw
  have hmem : id ∈ s.waiters .nothing := by simp [hqueue]
  obtain ⟨hlost, hhand, -, hwait, hcount⟩ := hc.of_mem_waiters hmem
  refine hc.release (hc.sound.of_tables rfl rfl rfl rfl) rfl rfl ?_ ?_ ?_
  · intro j hj w
    by_cases hw : w = .nothing
    · rw [hw, hqueue, List.count_cons_of_ne (fun he => hj he.symm)]
      rfl
    · rw [hother w hw]
  · rintro j rfl
    exact ⟨.nothing, hmem⟩
  · rintro j rfl w
    by_cases hw : w = .nothing
    · rw [hqueue, List.count_cons_self] at hcount
      rw [hw]
      exact List.count_eq_zero.1 (by simpa [waiters] using hcount)
    · rw [hother w hw, ← List.count_eq_zero, (hc.home j hlost hhand).place, hwait]
      simp [Ne.symm hw]

/-- A task is suspended on a wait under which it is registered now. -/
theorem Coherent.park {r : Scheduler P R W} {id : TaskId} (hc : Coherent s L X) (hid : id ∈ X)
    (hsound : Sound r) (htree : SameTree s r) (hrest : ∀ j, j ≠ id → Untouched s r j)
    (hself : (r.task? id).map Task.stance = (s.task? id).map Task.stance) {wait : Wait}
    (hwait : wait ≠ .children) (hcall : ∀ child, wait = .call child → Called s child id)
    (hplace : ∀ w, (r.waiters w).count id = if w.isListed ∧ w = wait then 1 else 0) :
    Coherent (r.suspend id wait) L (X \ {id}) := by
  obtain ⟨t, ht, hp⟩ := (hc.loose id hid).live
  obtain ⟨u, hu, hs⟩ : ∃ u, r.task? id = some u ∧ u.stance = t.stance := by
    rw [ht] at hself
    exact Option.map_eq_some_iff.1 hself
  have hprocess : u.process = t.process := congrArg Prod.fst hs
  have htree' := htree.trans (quiet_suspend r id wait).tree
  refine hc.putDown (hc.apart id hid) (hsound.of_tables rfl rfl rfl rfl) htree'.called
    (fun j hj => (hrest j hj).trans (untouched_suspend r id wait hj)) ?_ ⟨fun w => ?_, ?_⟩
  · intro v hv
    obtain rfl : { u with wait := wait, status := .waiting } = v := by
      simpa [suspend, hu] using hv
    refine ⟨?_, hprocess ▸ (hc.fit id t ht).alive, fun _ => rfl⟩
    simpa [hprocess, hwait] using Option.isSome_iff_ne_none.1 hp
  · have hw : (r.suspend id wait).wait? id = some wait := by simp [wait?, suspend, hu]
    rw [waiters_suspend, hplace, hw]
    by_cases he : w = wait
    · simp [he]
    · simp [he, Ne.symm he]
  · intro child hchild
    have hw : (r.suspend id wait).wait? id = some wait := by simp [wait?, suspend, hu]
    rw [hw] at hchild
    exact htree'.called child id (hcall child (Option.some.inj hchild))

end Scheduler

end CoopTasks

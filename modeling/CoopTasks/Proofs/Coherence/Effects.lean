import CoopTasks.Proofs.Coherence.Settlement
import Mathlib.Data.List.Nodup

/-!
# Effects keep coherence

A task that is being stepped is in hand. Its effect puts it down: answered at once, suspended, or
ended. There is one exception, a task that cancels itself or an ancestor while it is being cancelled
already: nobody answers it, and it is lost.
-/

namespace CoopTasks.Scheduler

variable {P R W : Type} {s s' : Scheduler P R W} {h : Host P R W} {L X : Set TaskId}

/-! ## Answers and suspensions -/

/-- Tasks that are resumed one after the other are put down. -/
theorem Coherent.foldl_wake {f : Scheduler P R W → TaskId → Scheduler P R W}
    (hf : ∀ (s : Scheduler P R W) (X : Set TaskId) (id : TaskId), Coherent s L X → id ∈ X →
      Coherent (f s id) L (X \ {id}))
    (ids : List TaskId) (hnodup : ids.Nodup) (hids : ∀ id ∈ ids, id ∈ X) (hc : Coherent s L X) :
    Coherent (ids.foldl f s) L {id ∈ X | id ∉ ids} := by
  induction ids generalizing s X with
  | nil => simpa using hc
  | cons id rest ih =>
    obtain ⟨hnot, hrest⟩ := List.nodup_cons.1 hnodup
    have hc' := hf s X id hc (hids id List.mem_cons_self)
    have hids' : ∀ j ∈ rest, j ∈ X \ {id} := fun j hj =>
      ⟨hids j (List.mem_cons_of_mem _ hj), fun he => hnot (he ▸ hj)⟩
    refine (ih hrest hids' hc').congr_hand fun j => ?_
    simp [and_assoc]

theorem Coherent.answer {id : TaskId} (hc : Coherent s L X) (hid : id ∈ X) (v : Value) :
    Coherent (s.answer id v) L (X \ {id}) :=
  hc.wakeFirst hid _

theorem Coherent.wakeAll (hc : Coherent s L X) {ids : List TaskId} (hnodup : ids.Nodup)
    (hids : ∀ id ∈ ids, id ∈ X) (v : Value) :
    Coherent (s.wakeAll ids v) L {id ∈ X | id ∉ ids} := by
  have hc' := Coherent.foldl_wake (fun s X id hc hid => hc.answer hid v) ids.reverse
    (List.nodup_reverse.2 hnodup) (by simpa using hids) hc
  exact hc'.congr_hand (by simp)

/-- A task is suspended at the end of the list of those who wait alike. -/
theorem Coherent.queueUp {id : TaskId} (hc : Coherent s L X) (hid : id ∈ X) (wait : Wait)
    (r : Scheduler P R W) (hsound : Sound r) (htree : SameTree s r)
    (hstance : ∀ j, (r.task? j).map Task.stance = (s.task? j).map Task.stance)
    (hlisted : wait.isListed)
    (hplace : ∀ w, r.waiters w = if w = wait then s.waiters wait ++ [id] else s.waiters w) :
    Coherent (r.suspend id wait) L (X \ {id}) := by
  have hnone := (hc.loose id hid).place
  refine hc.park hid hsound htree (fun j hj => ⟨hstance j, fun w => ?_⟩) (hstance id) ?_ ?_ ?_
  · rw [hplace]
    split
    · rename_i hw
      rw [hw, List.count_append, List.count_singleton]
      simp [Ne.symm hj]
    · rfl
  · rintro rfl
    cases hlisted
  · rintro child rfl
    cases hlisted
  · intro w
    rw [hplace]
    by_cases hw : w = wait
    · simp [hw, hlisted, List.count_eq_zero.2 (hnone wait)]
    · simp [hw, List.count_eq_zero.2 (hnone w)]

/-- A task is suspended on something that keeps no list. -/
theorem Coherent.suspendUnlisted {id : TaskId} (hc : Coherent s L X) (hid : id ∈ X) (wait : Wait)
    (hlisted : wait.isListed = false) (hne : wait ≠ .children)
    (hcall : ∀ child, wait = .call child → Called s child id) :
    Coherent (s.suspend id wait) L (X \ {id}) := by
  refine hc.park hid hc.sound (.refl s) (fun j _ => .refl s j) rfl hne hcall fun w => ?_
  rw [List.count_eq_zero.2 ((hc.loose id hid).place w), if_neg]
  rintro ⟨hw, rfl⟩
  rw [hlisted] at hw
  cases hw

theorem Coherent.frame {pending : Pending} {world : W} (hc : Coherent s L X) :
    Coherent { s with pending, world } L X :=
  hc.of_tables rfl rfl rfl rfl rfl rfl rfl rfl

theorem Coherent.call {id : TaskId} (hc : Coherent s L {id}) (operation : Operation W)
    (args : List Value) : Coherent (s.call id operation args) L ∅ := by
  unfold Scheduler.call
  obtain ⟨outcome, pending, world⟩ := s.pending.carryOut id (operation.invoke args id s.world)
  have hframe : Coherent { s with pending, world } L {id} := hc.frame
  cases outcome with
  | answered result => exact (hframe.wakeFirst rfl _).congr_hand (by simp)
  | awaiting op =>
    exact (hframe.suspendUnlisted rfl (.operation op) rfl Wait.noConfusion (by simp)).congr_hand
      (by simp)

theorem Coherent.take {id : TaskId} (hc : Coherent s L {id}) (pattern : Pattern) :
    Coherent ({ s with takers := s.takers ++ [(id, pattern)] }.suspend id .take) L ∅ := by
  have hplace : ∀ w, waiters { s with takers := s.takers ++ [(id, pattern)] } w =
      if w = .take then s.waiters .take ++ [id] else s.waiters w := by
    intro w
    cases w with
    | take => simp [waiters]
    | _ => rfl
  have hc' := hc.queueUp rfl .take { s with takers := s.takers ++ [(id, pattern)] }
    (hc.sound.of_tables rfl rfl rfl rfl) (.of_tasks rfl rfl) (fun _ => rfl) rfl hplace
  exact hc'.congr_hand (by simp)

theorem Coherent.join {id target : TaskId} (hc : Coherent s L {id})
    (hs : s.join id target = .ok s') : Coherent s' L ∅ := by
  have hwake : ∀ input, Coherent (s.wakeFirst id input) L ∅ := fun input =>
    (hc.wakeFirst rfl input).congr_hand (by simp)
  unfold Scheduler.join at hs
  split at hs
  · rename_i hl
    cases hs
    have hplace : ∀ w,
        (s.updateTask target fun t => { t with joiners := t.joiners ++ [id] }).waiters w =
          if w = .join target then s.waiters (.join target) ++ [id] else s.waiters w := by
      intro w
      cases w with
      | join other =>
        by_cases ho : other = target
        · obtain ⟨t, ht⟩ := Option.isSome_iff_exists.1 hl
          have ht' : s.task? target = some t := ht
          simp [waiters, ho, ht']
        · simp [waiters, ho]
      | _ => rfl
    have hstance : ∀ j, ((s.updateTask target fun t => { t with
        joiners := t.joiners ++ [id] }).task? j).map Task.stance = (s.task? j).map Task.stance := by
      intro j
      by_cases hj : j = target
      · cases ht : s.task? target <;> simp [hj, ht, Task.stance]
      · simp [hj]
    have hc' := hc.queueUp rfl (.join target)
      (s.updateTask target fun t => { t with joiners := t.joiners ++ [id] })
      (hc.sound.of_tables rfl rfl rfl rfl) (sameTree_updateTask s target _ fun _ => rfl) hstance rfl
      hplace
    exact hc'.congr_hand (by simp)
  · split at hs
    · cases hs
      exact hwake _
    · split at hs
      · cases hs
        exact hwake _
      · cases hs

/-! ## Channels -/

theorem Sound.setChannel (hn : Sound s) {id : ChannelId} {old : Channel}
    (hold : s.channels.find? id = some old) {c : Channel}
    (hclosed : c.closed → c.takers = [] ∧ c.putters = []) : Sound (s.setChannel id c) := by
  have hfind : ∀ d channel, (s.setChannel id c).channels.find? d = some channel →
      (d = id ∧ channel = c) ∨ s.channels.find? d = some channel := by
    intro d channel hd
    simp only [Scheduler.setChannel, Table.find?_modify] at hd
    split at hd
    · rename_i he
      obtain ⟨-, -, rfl⟩ := Option.map_eq_some_iff.1 hd
      exact Or.inl ⟨he, rfl⟩
    · exact Or.inr hd
  refine ⟨fun d channel hd => ?_, hn.groups, fun d channel hd hcl => ?_⟩
  · rcases hfind d channel hd with ⟨rfl, -⟩ | hd
    · exact hn.channels d old hold
    · exact hn.channels d channel hd
  · rcases hfind d channel hd with ⟨-, rfl⟩ | hd
    · exact hclosed hcl
    · exact hn.closed d channel hd hcl

/-- Tasks that leave the lists of a channel are taken in hand. -/
theorem Coherent.releaseChannel {T : Set TaskId} (hc : Coherent s L X) {id : ChannelId}
    {old c : Channel} (hold : s.channels.find? id = some old)
    (hclosed : c.closed → c.takers = [] ∧ c.putters = [])
    (hrest : ∀ j, j ∉ T → c.takers.count j = old.takers.count j ∧
      (c.putters.map Prod.fst).count j = (old.putters.map Prod.fst).count j)
    (hfrom : ∀ j ∈ T, j ∈ old.takers ∨ j ∈ old.putters.map Prod.fst)
    (hoff : ∀ j ∈ T, j ∉ c.takers ∧ j ∉ c.putters.map Prod.fst) :
    Coherent (s.setChannel id c) L (X ∪ T) := by
  have htakers := waiters_channelTake hold
  have hputters := waiters_channelPut hold
  have hfrom' : ∀ j ∈ T, ∃ w, j ∈ s.waiters w ∧ (w = .channelTake id ∨ w = .channelPut id) := by
    intro j hj
    rcases hfrom j hj with hm | hm
    · exact ⟨_, htakers ▸ hm, Or.inl rfl⟩
    · exact ⟨_, hputters ▸ hm, Or.inr rfl⟩
  refine hc.release (hc.sound.setChannel hold hclosed) rfl rfl ?_ ?_ ?_
  · intro j hj w
    rw [waiters_setChannel s hold]
    split
    · rename_i hw
      rw [hw, htakers, (hrest j hj).1]
    · split
      · rename_i hw
        rw [hw, hputters, (hrest j hj).2]
      · rfl
  · intro j hj
    obtain ⟨w, hm, -⟩ := hfrom' j hj
    exact ⟨w, hm⟩
  · intro j hj w
    rw [waiters_setChannel s hold]
    obtain ⟨w', hm, hw'⟩ := hfrom' j hj
    have hwait := (hc.of_mem_waiters hm).2.2.2.1
    split
    · exact (hoff j hj).1
    · split
      · exact (hoff j hj).2
      · rename_i htake hput
        refine hc.not_mem_waiters (Or.inl ?_)
        rw [hwait, ne_eq, Option.some.injEq]
        rintro rfl
        rcases hw' with rfl | rfl
        · exact htake rfl
        · exact hput rfl

/-- The buffer of a channel is no concern of any task. -/
theorem Coherent.setChannel (hc : Coherent s L X) {id : ChannelId} {old c : Channel}
    (hold : s.channels.find? id = some old) (htakers : c.takers = old.takers)
    (hputters : c.putters = old.putters) (hclosed : c.closed = old.closed) :
    Coherent (s.setChannel id c) L X := by
  have hc' := hc.releaseChannel (T := ∅) (c := c) hold
    (fun h => by rw [htakers, hputters]; exact hc.sound.closed id old hold (hclosed ▸ h))
    (fun j _ => by rw [htakers, hputters]; exact ⟨rfl, rfl⟩) (by simp) (by simp)
  exact hc'.congr_hand (by simp)

/-- A task in hand is not among the tasks that are released. -/
theorem Coherent.ne_of_mem_waiters {id j : TaskId} (hc : Coherent s L {id}) {w : Wait}
    (hm : j ∈ s.waiters w) : j ≠ id :=
  fun he => (hc.of_mem_waiters hm).2.1 he

/-- Of two tasks in hand the one is put down, and then the other. -/
theorem Coherent.putDownBoth {id j : TaskId} (hc : Coherent s L ((X \ {id}) \ {j}))
    (hX : ∀ i ∈ X, i = id ∨ i = j) : Coherent s L ∅ := by
  refine hc.congr_hand fun i => ⟨?_, fun hi => absurd hi (by simp)⟩
  rintro ⟨⟨hi, hid⟩, hj⟩
  rcases hX i hi with he | he
  · exact hid he
  · exact hj he

/-- Two tasks in hand are answered. -/
theorem Coherent.answerBoth {id j : TaskId} (hc : Coherent s L ({id} ∪ {j})) (hne : j ≠ id)
    (v w : Value) : Coherent ((s.answer j v).answer id w) L ∅ :=
  ((hc.answer (Or.inr rfl) v).answer ⟨Or.inl rfl, hne.symm⟩ w).putDownBoth fun _ => Or.symm

theorem Coherent.blockTaker {id : TaskId} {channel : ChannelId} {c : Channel}
    (hc : Coherent s L {id}) (hfind : s.channels.find? channel = some c)
    (hclosed : c.closed = false) :
    Coherent ((s.setChannel channel { c with takers := c.takers ++ [id] }).suspend id
      (.channelTake channel)) L ∅ := by
  have hplace : ∀ w, (s.setChannel channel { c with takers := c.takers ++ [id] }).waiters w =
      if w = .channelTake channel then s.waiters (.channelTake channel) ++ [id]
      else s.waiters w := by
    intro w
    rw [waiters_setChannel s hfind]
    by_cases hw : w = .channelPut channel
    · simp [hw, waiters, hfind]
    · simp [hw, waiters, hfind]
  have hc' := hc.queueUp rfl (.channelTake channel)
    (s.setChannel channel { c with takers := c.takers ++ [id] })
    (hc.sound.setChannel hfind fun h => by rw [hclosed] at h; cases h) (.of_tasks rfl rfl)
    (fun _ => rfl) rfl hplace
  exact hc'.congr_hand (by simp)

theorem Coherent.blockPutter {id : TaskId} {channel : ChannelId} {c : Channel}
    (hc : Coherent s L {id}) (hfind : s.channels.find? channel = some c)
    (hclosed : c.closed = false) (v : Value) :
    Coherent ((s.setChannel channel { c with putters := c.putters ++ [(id, v)] }).suspend id
      (.channelPut channel)) L ∅ := by
  have hplace : ∀ w, (s.setChannel channel { c with putters := c.putters ++ [(id, v)] }).waiters w =
      if w = .channelPut channel then s.waiters (.channelPut channel) ++ [id] else s.waiters w := by
    intro w
    rw [waiters_setChannel s hfind]
    by_cases hw : w = .channelTake channel
    · simp [hw, waiters, hfind]
    · simp [hw, waiters, hfind]
  have hc' := hc.queueUp rfl (.channelPut channel)
    (s.setChannel channel { c with putters := c.putters ++ [(id, v)] })
    (hc.sound.setChannel hfind fun h => by rw [hclosed] at h; cases h) (.of_tasks rfl rfl)
    (fun _ => rfl) rfl hplace
  exact hc'.congr_hand (by simp)

/-- The first taker of a channel is taken in hand. -/
theorem Coherent.releaseTaker {id taker : TaskId} {channel : ChannelId} {c : Channel}
    {takers : List TaskId} (hc : Coherent s L {id}) (hfind : s.channels.find? channel = some c)
    (hclosed : c.closed = false) (ht : c.takers = taker :: takers) :
    Coherent (s.setChannel channel { c with takers }) L ({id} ∪ {taker}) ∧ taker ≠ id := by
  have htakers : s.waiters (.channelTake channel) = taker :: takers := by
    rw [waiters_channelTake hfind, ht]
  have hmem : taker ∈ s.waiters (.channelTake channel) := by simp [htakers]
  have hputter : taker ∉ s.waiters (.channelPut channel) :=
    hc.not_mem_waiters (Or.inl (by simp [(hc.of_mem_waiters hmem).2.2.2.1]))
  have hnodup := hc.nodup_waiters (.channelTake channel)
  rw [htakers] at hnodup
  rw [waiters_channelPut hfind] at hputter
  refine ⟨?_, hc.ne_of_mem_waiters hmem⟩
  refine hc.releaseChannel hfind (fun h => ?_) (fun j hj => ⟨?_, rfl⟩) ?_ ?_
  · rw [hclosed] at h
    cases h
  · simp [ht, List.count_cons_of_ne (Ne.symm hj)]
  · rintro j rfl
    exact Or.inl (by simp [ht])
  · rintro j rfl
    exact ⟨(List.nodup_cons.1 hnodup).1, hputter⟩

/-- The first putter of a channel is taken in hand. -/
theorem Coherent.releasePutter {id putter : TaskId} {channel : ChannelId} {c : Channel}
    {next : Value} {putters : List (TaskId × Value)} (hc : Coherent s L {id})
    (hfind : s.channels.find? channel = some c) (hp : c.putters = (putter, next) :: putters)
    (buffer : List Value) :
    Coherent (s.setChannel channel { c with buffer, putters }) L ({id} ∪ {putter}) ∧
      putter ≠ id := by
  have hputters : s.waiters (.channelPut channel) = putter :: putters.map Prod.fst := by
    rw [waiters_channelPut hfind, hp, List.map_cons]
  have hmem : putter ∈ s.waiters (.channelPut channel) := by simp [hputters]
  have htaker : putter ∉ s.waiters (.channelTake channel) :=
    hc.not_mem_waiters (Or.inl (by simp [(hc.of_mem_waiters hmem).2.2.2.1]))
  have hnodup := hc.nodup_waiters (.channelPut channel)
  rw [hputters] at hnodup
  rw [waiters_channelTake hfind] at htaker
  refine ⟨?_, hc.ne_of_mem_waiters hmem⟩
  refine hc.releaseChannel hfind (fun h => ?_) (fun j hj => ⟨rfl, ?_⟩) ?_ ?_
  · have hnone := (hc.sound.closed channel c hfind h).2
    rw [hp] at hnone
    cases hnone
  · simp [hp, List.count_cons_of_ne (Ne.symm hj)]
  · rintro j rfl
    exact Or.inr (by simp [hp])
  · rintro j rfl
    exact ⟨htaker, (List.nodup_cons.1 hnodup).1⟩

theorem Coherent.channelTake {id : TaskId} {channel : ChannelId} (hc : Coherent s L {id})
    (hs : s.channelTake id channel = .ok s') : Coherent s' L ∅ := by
  unfold Scheduler.channelTake at hs
  cases hfind : s.channels.find? channel with
  | none => simp [hfind] at hs
  | some c =>
    simp only [hfind] at hs
    have hanswer : ∀ c' : Channel, c'.takers = c.takers → c'.putters = c.putters →
        c'.closed = c.closed → ∀ v, Coherent ((s.setChannel channel c').answer id v) L ∅ :=
      fun c' ht hp hcl v => ((hc.setChannel hfind ht hp hcl).answer rfl v).congr_hand (by simp)
    rcases c.take_cases id with htake | ⟨hclosed, htake⟩ | ⟨v, rest, htake⟩ |
      ⟨v, buffer, putter, next, putters, hp, htake⟩ <;> simp only [htake] at hs <;> cases hs
    · exact hanswer c rfl rfl rfl .closed
    · exact hc.blockTaker hfind hclosed
    · exact hanswer { c with buffer := rest } rfl rfl rfl v
    · obtain ⟨hboth, hne⟩ := hc.releasePutter hfind hp buffer
      exact hboth.answerBoth hne .unit v

theorem Coherent.channelPut {id : TaskId} {channel : ChannelId} {v : Value}
    (hc : Coherent s L {id}) (hs : s.channelPut id channel v = .ok s') : Coherent s' L ∅ := by
  unfold Scheduler.channelPut at hs
  cases hfind : s.channels.find? channel with
  | none => simp [hfind] at hs
  | some c =>
    simp only [hfind] at hs
    have hanswer : ∀ c' : Channel, c'.takers = c.takers → c'.putters = c.putters →
        c'.closed = c.closed → Coherent ((s.setChannel channel c').answer id .unit) L ∅ :=
      fun c' ht hp hcl => ((hc.setChannel hfind ht hp hcl).answer rfl _).congr_hand (by simp)
    rcases c.put_cases id v with ⟨hclosed, taker, takers, ht, hput⟩ | ⟨hclosed, hput⟩ |
      ⟨buffer, hput⟩ | hput | ⟨capacity, hput⟩ <;> simp only [hput] at hs <;> cases hs
    · obtain ⟨hboth, hne⟩ := hc.releaseTaker hfind hclosed ht
      exact (hboth.congr_hand fun j => or_comm).answerBoth hne.symm .unit v
    · exact hc.blockPutter hfind hclosed v
    · exact hanswer { c with buffer } rfl rfl rfl
    · exact hanswer c rfl rfl rfl
    · exact ((hc.setChannel hfind rfl rfl rfl).wakeFirst rfl _).congr_hand (by simp)

theorem Coherent.channelClose {id : TaskId} {channel : ChannelId} (hc : Coherent s L {id})
    (hs : s.channelClose id channel = .ok s') : Coherent s' L ∅ := by
  unfold Scheduler.channelClose at hs
  cases hfind : s.channels.find? channel with
  | none => simp [hfind] at hs
  | some c =>
    simp only [hfind, Except.ok.injEq] at hs
    subst hs
    have htakers := waiters_channelTake hfind
    have hputters := waiters_channelPut hfind
    have htake := htakers ▸ hc.nodup_waiters (.channelTake channel)
    have hput := hputters ▸ hc.nodup_waiters (.channelPut channel)
    have hid : id ∉ c.takers ∧ id ∉ c.putters.map Prod.fst :=
      ⟨htakers ▸ (hc.loose id rfl).place _, hputters ▸ (hc.loose id rfl).place _⟩
    have hdisjoint : ∀ j ∈ c.takers, j ∉ c.putters.map Prod.fst := by
      intro j hj
      rw [← htakers] at hj
      rw [← hputters]
      exact hc.not_mem_waiters (Or.inl (by simp [(hc.of_mem_waiters hj).2.2.2.1]))
    have hempty : c.close.takers = [] ∧ c.close.putters = [] := by
      unfold Channel.close
      split
      · exact hc.sound.closed channel c hfind ‹_›
      · exact ⟨rfl, rfl⟩
    have hrelease : Coherent (s.setChannel channel c.close) L
        ({id} ∪ {j | j ∈ c.takers ∨ j ∈ c.putters.map Prod.fst}) := by
      refine hc.releaseChannel hfind (fun _ => hempty) (fun j hj => ?_) (fun _ hj => hj)
        fun j _ => ?_
      · rw [hempty.1, hempty.2, List.count_eq_zero.2 fun hm => hj (Or.inl hm),
          List.count_eq_zero.2 fun hm => hj (Or.inr hm)]
        exact ⟨rfl, rfl⟩
      · simp [hempty]
    have hanswer := hrelease.answer (Or.inl rfl) .unit
    have hputters' := hanswer.wakeAll hput
      (fun j hj => ⟨Or.inr (Or.inr hj), fun he => hid.2 (he ▸ hj)⟩) .unit
    have htakers' := hputters'.wakeAll htake
      (fun j hj => ⟨⟨Or.inr (Or.inl hj), fun he => hid.1 (he ▸ hj)⟩, hdisjoint j hj⟩) .closed
    refine htakers'.congr_hand fun j => ?_
    simp only [Set.mem_sdiff, Set.mem_union, Set.mem_singleton_iff, Set.mem_ofPred_eq,
      Set.mem_empty_iff_false, iff_false]
    rintro ⟨⟨⟨hj | hj | hj, hne⟩, hnput⟩, hntake⟩
    · exact hne hj
    · exact hntake hj
    · exact hnput hj

theorem Coherent.openChannel {id : TaskId} (hc : Coherent s L {id}) (policy : Buffering) :
    Coherent (s.openChannel id policy) L ∅ := by
  have hnew : s.channels.find? ⟨s.nextChannel⟩ = none := by
    cases hfind : s.channels.find? ⟨s.nextChannel⟩ with
    | none => rfl
    | some c => simpa using hc.sound.channels _ c hfind
  have hfind : ∀ d, (s.channels.insert ⟨s.nextChannel⟩ { policy }).find? d =
      if d = ⟨s.nextChannel⟩ then some { policy } else s.channels.find? d :=
    fun d => s.channels.find?_insert _ d _
  have hopened : Coherent { s with
      channels := s.channels.insert ⟨s.nextChannel⟩ { policy }
      nextChannel := s.nextChannel + 1 } L {id} := by
    refine hc.keep ⟨fun d c hd => ?_, hc.sound.groups, fun d c hd hclosed => ?_⟩ (.of_tasks rfl rfl)
      fun j => ⟨rfl, fun w => ?_⟩
    · rw [hfind] at hd
      split at hd
      · rename_i he
        simp [he]
      · exact Nat.lt_succ_of_lt (hc.sound.channels d c hd)
    · rw [hfind] at hd
      split at hd
      · cases hd
        exact ⟨rfl, rfl⟩
      · exact hc.sound.closed d c hd hclosed
    · cases w with
      | channelTake d => by_cases hd : d = ⟨s.nextChannel⟩ <;> simp [waiters, hfind, hd, hnew]
      | channelPut d => by_cases hd : d = ⟨s.nextChannel⟩ <;> simp [waiters, hfind, hd, hnew]
      | _ => rfl
  exact (hopened.answer rfl _).congr_hand (by simp)

/-! ## Notifications -/

/-- The tasks that waited for a published notification are taken in hand. -/
theorem Coherent.publish (hc : Coherent s L X) (h : Host P R W) (n : Notification) :
    Coherent (s.publish h n).2 L (X ∪ {j | j ∈ (s.publish h n).1}) ∧ (s.publish h n).1.Nodup ∧
      ∀ j ∈ (s.publish h n).1, j ∈ s.waiters .take := by
  have hmatched : (s.publish h n).1 =
      (s.takers.filter fun taker => taker.2.accepts n).map Prod.fst := by
    simp [Scheduler.publish, List.partition_eq_filter_filter]
  have hothers : (s.publish h n).2.waiters .take =
      (s.takers.filter fun taker => !taker.2.accepts n).map Prod.fst := by
    simp [Scheduler.publish, waiters, List.partition_eq_filter_filter, Function.comp_def]
  have hother : ∀ w, w ≠ .take → (s.publish h n).2.waiters w = s.waiters w := by
    intro w hw
    cases w <;> first | rfl | exact absurd rfl hw
  -- every taker is either matched or left
  have hsplit : ∀ j, (s.waiters .take).count j =
      (s.publish h n).1.count j + ((s.publish h n).2.waiters .take).count j := by
    intro j
    have hperm := (List.filter_append_perm (fun taker => taker.2.accepts n) s.takers).map Prod.fst
    rw [hmatched, hothers, waiters, ← hperm.count_eq j, List.map_append, List.count_append]
  have hmem : ∀ j ∈ (s.publish h n).1, j ∈ s.waiters .take := by
    intro j hj
    have hpos := List.count_pos_iff.2 hj
    exact List.count_pos_iff.1 (by rw [hsplit]; omega)
  have hone : ∀ j ∈ (s.publish h n).1, (s.publish h n).1.count j = 1 ∧
      ((s.publish h n).2.waiters .take).count j = 0 := by
    intro j hj
    have hpos := List.count_pos_iff.2 hj
    have hcount := (hc.of_mem_waiters (hmem j hj)).2.2.2.2
    rw [hsplit] at hcount
    omega
  refine ⟨?_, ?_, hmem⟩
  · refine hc.release (hc.sound.of_tables rfl rfl rfl rfl) rfl rfl ?_ ?_ ?_
    · intro j hj w
      by_cases hw : w = .take
      · rw [hw, hsplit, List.count_eq_zero.2 hj, Nat.zero_add]
      · rw [hother w hw]
    · exact fun j hj => ⟨.take, hmem j hj⟩
    · intro j hj w
      by_cases hw : w = .take
      · rw [hw]
        exact List.count_eq_zero.1 (hone j hj).2
      · rw [hother w hw]
        refine hc.not_mem_waiters (Or.inl ?_)
        rw [(hc.of_mem_waiters (hmem j hj)).2.2.2.1]
        simp [Ne.symm hw]
  · rw [List.nodup_iff_count]
    intro j
    by_cases hj : j ∈ (s.publish h n).1
    · exact Nat.le_of_eq (hone j hj).1
    · rw [List.count_eq_zero.2 hj]
      exact Nat.zero_le 1

theorem Coherent.put {id : TaskId} (hc : Coherent s L {id}) (h : Host P R W) (n : Notification) :
    Coherent (s.put h id n) L ∅ := by
  obtain ⟨hpublish, hnodup, hmem⟩ := hc.publish h n
  have hid : id ∉ (s.publish h n).1 := fun hm => (hc.loose id rfl).place .take (hmem id hm)
  have hanswer := hpublish.answer (Or.inl rfl) .unit
  refine (hanswer.wakeAll hnodup (fun j hj => ⟨Or.inr hj, fun he => hid (he ▸ hj)⟩) _).congr_hand ?_
  intro j
  simp only [Set.mem_sdiff, Set.mem_union, Set.mem_singleton_iff, Set.mem_ofPred_eq,
    Set.mem_empty_iff_false, iff_false]
  rintro ⟨⟨hj | hj, hne⟩, hnot⟩
  · exact hne hj
  · exact hnot hj

/-! ## New tasks -/

/-- A new task is in hand until it is queued. -/
theorem Coherent.addTask (hc : Coherent s L X) (hfresh : s.task? ⟨s.nextTask⟩ = none)
    (name : String) (parent : Option TaskId) (role : Role) {process : Process P R W}
    (hp : process ≠ .ended) :
    Coherent (s.addTask name parent role process).2 L (X ∪ {⟨s.nextTask⟩}) := by
  have hnew : (s.addTask name parent role process).2.task? ⟨s.nextTask⟩ =
      some { name, parent, role, process := some process } := by
    rw [task?_addTask, if_pos rfl]
  have hlost : ⟨s.nextTask⟩ ∉ L := by
    intro hid
    obtain ⟨t, ht, -⟩ := (hc.lost _ hid).live
    rw [hfresh] at ht
    cases ht
  have hwait : s.wait? ⟨s.nextTask⟩ = none := by simp [wait?, hfresh]
  refine hc.change {⟨s.nextTask⟩} ?_ ?_ (fun j hj => ⟨stance_addTask s name parent role process hj,
    fun w => by rw [waiters_addTask s hfresh]⟩)
    (fun j hj => by simp [Set.mem_singleton_iff.not.1 hj]) ?_
  · cases parent <;> exact hc.sound.of_tables rfl rfl rfl rfl
  · rintro j - child - ⟨t, ht, hrole, hparent⟩
    have hne : child ≠ ⟨s.nextTask⟩ := by
      rintro rfl
      rw [hfresh] at ht
      cases ht
    unfold Called
    rw [task?_addTask, if_neg hne, task?_addChild, ht]
    split
    · exact ⟨{ t with children := t.children ++ [⟨s.nextTask⟩] }, rfl, hrole, hparent⟩
    · exact ⟨t, rfl, hrole, hparent⟩
  · rintro j rfl
    refine ⟨hlost, fun t ht => ?_, fun _ => ⟨⟨_, hnew, rfl⟩, fun w => ?_⟩,
      fun h => absurd (Or.inr rfl) h⟩
    · rw [hnew] at ht
      cases ht
      exact ⟨by simp, by simpa using hp, fun h => absurd rfl h⟩
    · rw [waiters_addTask s hfresh]
      exact hc.not_mem_waiters (Or.inl (by simp [hwait]))

theorem Forest.fresh_task (hf : Forest s) : s.task? ⟨s.nextTask⟩ = none := by
  cases ht : s.task? ⟨s.nextTask⟩ with
  | none => rfl
  | some t => simpa using hf.fresh ⟨s.nextTask⟩ (by simp [isLive_eq, ht])

/-- A task that was in hand before is not the new one. -/
theorem Coherent.ne_fresh {id : TaskId} (hc : Coherent s L X) (hid : id ∈ X) (hf : Forest s) :
    id ≠ ⟨s.nextTask⟩ := by
  rintro rfl
  obtain ⟨t, ht, -⟩ := (hc.loose _ hid).live
  rw [hf.fresh_task] at ht
  cases ht

/-- The spawned task is taken in hand, and waits for nothing. -/
theorem Coherent.spawn (hc : Coherent s L X) (hf : Forest s) (h : Host P R W) (process : P)
    (args : List Value) (parent : Option TaskId) (role : Role) :
    Coherent (s.spawn h process args parent role).2 L (X ∪ {⟨s.nextTask⟩}) ∧
      ∃ t, (s.spawn h process args parent role).2.task? ⟨s.nextTask⟩ = some t ∧
        t.role = role ∧ t.parent = parent ∧ t.wait = .nothing := by
  have hstarted := h.program.spawn_ne_ended process args s.world
  unfold Scheduler.spawn
  cases hspawn : h.program.spawn process args s.world with
  | mk started world =>
    rw [hspawn] at hstarted
    have hframe : Coherent { s with world } L X := hc.frame
    exact ⟨hframe.addTask hf.fresh_task _ parent role hstarted, _,
      (task?_addTask ..).trans (if_pos rfl), rfl, rfl, rfl⟩

theorem Coherent.callProcess {id : TaskId} (hc : Coherent s L {id}) (hf : Forest s)
    (h : Host P R W) (process : P) (args : List Value) :
    Coherent (s.callProcess h id process args) L ∅ := by
  have hne := hc.ne_fresh rfl hf
  obtain ⟨hspawn, t, ht, hrole, hparent, hwait⟩ := hc.spawn hf h process args (some id) .called
  have hcalled := hspawn.suspendUnlisted (Or.inl rfl) (.call ⟨s.nextTask⟩) rfl Wait.noConfusion
    fun child hchild => by cases hchild; exact ⟨t, ht, hrole, hparent⟩
  have hchild : ⟨s.nextTask⟩ ∈ ({id} ∪ {⟨s.nextTask⟩} : Set TaskId) \ {id} := ⟨Or.inr rfl, hne.symm⟩
  refine (hcalled.enqueueFirst hchild ?_ _).putDownBoth fun _ hj => hj
  simp [wait?, suspend, hne.symm, ht, hwait]

theorem Coherent.fork {id : TaskId} (hc : Coherent s L {id}) (hf : Forest s) (h : Host P R W)
    (process : P) (args : List Value) : Coherent (s.fork h id process args) L ∅ := by
  have hne := hc.ne_fresh rfl hf
  obtain ⟨hspawn, t, ht, -, -, hwait⟩ :=
    hc.spawn hf h process args (some (s.forkOwner id)) .forked
  have hchild : ⟨s.nextTask⟩ ∈ ({id} ∪ {⟨s.nextTask⟩} : Set TaskId) := Or.inr rfl
  have hcaller : id ∈ ({id} ∪ {⟨s.nextTask⟩} : Set TaskId) \ {⟨s.nextTask⟩} := ⟨Or.inl rfl, hne⟩
  have hqueued := hspawn.enqueueLast hchild (by simp [wait?, ht, hwait]) (.value .unit)
  exact (hqueued.answer hcaller _).putDownBoth fun _ => Or.symm

theorem groups_addBranches (owner : TaskId) (group : GroupId) (mode : GroupMode) (slot : Nat)
    (effects : List (Effect P W)) (s : Scheduler P R W) :
    (s.addBranches owner group mode slot effects).2.groups = s.groups ∧
      (s.addBranches owner group mode slot effects).2.nextGroup = s.nextGroup := by
  induction effects generalizing slot s with
  | nil => exact ⟨rfl, rfl⟩
  | cons effect rest ih => exact ih (slot + 1) _

theorem stance_addBranches (owner : TaskId) (group : GroupId) (mode : GroupMode) (slot : Nat)
    (effects : List (Effect P W)) (s : Scheduler P R W) {j : TaskId} (hj : j.val < s.nextTask) :
    ((s.addBranches owner group mode slot effects).2.task? j).map Task.stance =
      (s.task? j).map Task.stance := by
  induction effects generalizing slot s with
  | nil => rfl
  | cons effect rest ih =>
    have hne : j ≠ ⟨s.nextTask⟩ := by rintro rfl; simp at hj
    refine (ih (slot + 1) _ ?_).trans (stance_addTask s (mode.label slot) (some owner)
      (.branch group slot) (.script [effect]) hne)
    exact Nat.lt_succ_of_lt hj

/-- The branches of a group are in hand, all of them new, and wait for nothing. -/
theorem Coherent.addBranches (owner : TaskId) (group : GroupId) (mode : GroupMode) (slot : Nat)
    (effects : List (Effect P W)) (s : Scheduler P R W) (X : Set TaskId) (hc : Coherent s L X)
    (ht : Tidy s) (hl : s.isLive owner) :
    let r := s.addBranches owner group mode slot effects
    Coherent r.2 L (X ∪ {j | j ∈ r.1}) ∧ r.1.Nodup ∧
      ∀ j ∈ r.1, s.nextTask ≤ j.val ∧ r.2.wait? j = some .nothing := by
  induction effects generalizing slot s X with
  | nil =>
    simp only [Scheduler.addBranches]
    exact ⟨hc.congr_hand (by simp), List.nodup_nil, by simp⟩
  | cons effect rest ih =>
    let r := s.addTask (mode.label slot) (some owner) (.branch group slot) (.script [effect])
    have hnext : r.2.nextTask = s.nextTask + 1 := nextTask_addTask ..
    have hadd : Coherent r.2 L (X ∪ {⟨s.nextTask⟩}) :=
      hc.addTask ht.forest.fresh_task _ _ _ (by simp)
    have htidy : Tidy r.2 := ht.addTask _ _ _ fun p hp => by cases hp; exact hl
    have hlive : r.2.isLive owner := (isLive_addTask ..).trans (by simp [hl])
    obtain ⟨hbranches, hnodup, hnew⟩ := ih (slot + 1) r.2 _ hadd htidy hlive
    have hcons : s.addBranches owner group mode slot (effect :: rest) =
        (⟨s.nextTask⟩ :: (r.2.addBranches owner group mode (slot + 1) rest).1,
          (r.2.addBranches owner group mode (slot + 1) rest).2) := rfl
    simp only [hcons]
    refine ⟨hbranches.congr_hand fun j => by simp [or_assoc, or_left_comm],
      List.nodup_cons.2 ⟨fun hm => ?_, hnodup⟩, ?_⟩
    · have hle := (hnew _ hm).1
      rw [hnext] at hle
      exact Nat.not_succ_le_self _ hle
    · intro j hj
      rcases List.mem_cons.1 hj with rfl | hj
      · have hstance := stance_addBranches owner group mode (slot + 1) rest r.2
          (j := ⟨s.nextTask⟩) (hnext ▸ Nat.lt_succ_self _)
        have hwait := congrArg (Option.map fun stance => stance.2.1) hstance
        have hself : r.2.task? ⟨s.nextTask⟩ = some _ := (task?_addTask ..).trans (if_pos rfl)
        rw [hself] at hwait
        refine ⟨Nat.le_refl _, ?_⟩
        simpa [wait?, Task.stance, Function.comp_def] using hwait
      · obtain ⟨hle, hwait⟩ := hnew j hj
        rw [hnext] at hle
        exact ⟨Nat.le_of_succ_le hle, hwait⟩

/-- Tasks in hand that wait for nothing are queued before all others. -/
theorem Coherent.enqueueAll (hc : Coherent s L X) (ids : List TaskId) (hnodup : ids.Nodup)
    (hids : ∀ id ∈ ids, id ∈ X ∧ s.wait? id = some .nothing) (input : Input) :
    Coherent { s with queue := ids.map (fun id => (id, input)) ++ s.queue } L
      {id ∈ X | id ∉ ids} := by
  induction ids with
  | nil => simpa using hc
  | cons id rest ih =>
    obtain ⟨hnot, hrest⟩ := List.nodup_cons.1 hnodup
    have hc' := ih hrest fun j hj => hids j (List.mem_cons_of_mem _ hj)
    obtain ⟨hid, hwait⟩ := hids id List.mem_cons_self
    refine (hc'.enqueueFirst ⟨hid, hnot⟩ hwait input).congr_hand fun j => ?_
    simp [and_assoc, and_comm]

/-- The owner of a new group is suspended, and its branches are queued. -/
theorem Coherent.enterGroup {id : TaskId} {branches : List TaskId}
    (hc : Coherent s L ({id} ∪ {j | j ∈ branches})) (hnodup : branches.Nodup)
    (hwait : ∀ j ∈ branches, s.wait? j = some .nothing) (hid : id ∉ branches) {g : GroupId}
    (hnew : s.groups.find? g = none) (hnext : g.val < s.nextGroup) {group : Group}
    (howner : group.owner = id) :
    Coherent { s.suspend id (.group g) with
      queue := branches.map (fun branch => (branch, .value .unit)) ++ s.queue
      groups := s.groups.insert g group } L ∅ := by
  let r : Scheduler P R W := { s with groups := s.groups.insert g group }
  have hfind : ∀ g', r.groups.find? g' = if g' = g then some group else s.groups.find? g' :=
    fun g' => s.groups.find?_insert _ g' _
  have hsound : Sound r := by
    refine ⟨hc.sound.channels, fun g' other hg => ?_, hc.sound.closed⟩
    rw [hfind] at hg
    split at hg
    · rename_i he
      exact he ▸ hnext
    · exact hc.sound.groups g' other hg
  have hplace : ∀ w, r.waiters w =
      if w = .group g then s.waiters (.group g) ++ [id] else s.waiters w := by
    intro w
    cases w with
    | group g' => by_cases he : g' = g <;> simp [waiters, hfind, he, hnew, howner]
    | _ => rfl
  have hne : ∀ j ∈ branches, j ≠ id := fun j hj he => hid (he ▸ hj)
  have hparked := hc.queueUp (Or.inl rfl) (.group g) r hsound (.of_tasks rfl rfl) (fun _ => rfl) rfl
    hplace
  have hqueued := hparked.enqueueAll branches hnodup
    (fun j hj => ⟨⟨Or.inr hj, hne j hj⟩, (wait?_updateTask r id j _ (hne j hj)).trans (hwait j hj)⟩)
    (.value .unit)
  refine hqueued.congr_hand fun j => ⟨?_, fun hj => absurd hj (Set.notMem_empty j)⟩
  rintro ⟨⟨hj | hj, hnot⟩, hout⟩
  · exact hnot hj
  · exact absurd hj hout

theorem Coherent.startGroup {id : TaskId} (hc : Coherent s L {id}) (ht : Tidy s) (mode : GroupMode)
    (effects : List (Effect P W)) : Coherent (s.startGroup id mode effects) L ∅ := by
  unfold Scheduler.startGroup
  split
  · exact (hc.answer rfl _).congr_hand (by simp)
  obtain ⟨t, hid, hp⟩ := (hc.loose id rfl).live
  have hlive : s.isLive id := by simp [isLive_eq, hid]
  have hnext : SameTree s { s with nextGroup := s.nextGroup + 1 } := .of_tasks rfl rfl
  have hgroup : Coherent { s with nextGroup := s.nextGroup + 1 } L {id} :=
    hc.keep ⟨hc.sound.channels, fun g group hg => Nat.lt_succ_of_lt (hc.sound.groups g group hg),
      hc.sound.closed⟩ hnext fun j => ⟨rfl, fun w => by cases w <;> rfl⟩
  obtain ⟨hbranches, hnodup, hnew⟩ := Coherent.addBranches id ⟨s.nextGroup⟩ mode 0 effects _ _
    hgroup (ht.congr hnext) ((hnext.isLive id).trans hlive)
  obtain ⟨hgroups, hnextGroup⟩ := groups_addBranches id ⟨s.nextGroup⟩ mode 0 effects
    { s with nextGroup := s.nextGroup + 1 }
  refine hbranches.enterGroup hnodup (fun j hj => (hnew j hj).2) (fun hm => ?_) ?_ ?_ rfl
  · exact absurd (ht.forest.fresh id hlive) (Nat.not_lt.2 (hnew id hm).1)
  · rw [hgroups]
    cases hfind : s.groups.find? ⟨s.nextGroup⟩ with
    | none => rfl
    | some group => exact absurd (hc.sound.groups _ group hfind) (Nat.lt_irrefl _)
  · rw [hnextGroup]
    exact Nat.lt_succ_self _

/-! ## Cancellation -/

/-- A task that is being cancelled asks to cancel itself or an ancestor. Its own signal has been
delivered before, and an answer it does not get. -/
def Forsakes (s : Scheduler P R W) (id : TaskId) (effect : Effect P W) : Prop :=
  ∃ target, effect = .cancel target ∧ s.beingCancelled id ∧ Below s target id

/-- A task in hand that nobody is going to put down is lost. -/
theorem Coherent.lose {id : TaskId} (hc : Coherent s L {id}) (hid : Lost s id) :
    Coherent s (L ∪ {id}) ∅ := by
  refine ⟨fun j hlost _ => ?_, by simp, ?_, by simp, hc.fit, hc.sound⟩
  · exact hc.home j (fun h => hlost (Or.inl h)) fun h => hlost (Or.inr h)
  · rintro j (hj | rfl)
    · exact hc.lost j hj
    · exact hid

theorem Coherent.cancel {id target : TaskId} (hc : Coherent s L {id}) (hf : Forest s)
    {t : Task P R W} (ht : s.task? id = some t) (hwait : t.wait = .nothing)
    (hstatus : t.status = .running) (hs : s.cancel id target = .ok s') :
    Coherent s' (L ∪ {j | j = id ∧ Forsakes s j (.cancel target)}) ∅ := by
  obtain ⟨u, hu, hp⟩ := (hc.loose id rfl).live
  rw [ht] at hu
  cases hu
  have hlive : s.isLive id := by simp [isLive_eq, ht]
  have hbelow : Forsakes s id (.cancel target) → t.cancelling ∧ Below s target id := by
    rintro ⟨_, he, hcancel, hb⟩
    cases he
    exact ⟨by rwa [beingCancelled_eq ht] at hcancel, hb⟩
  have hanswer : Coherent (s.answer id .unit) L ∅ := (hc.answer rfl _).congr_hand (by simp)
  unfold Scheduler.cancel at hs
  split at hs
  · split at hs
    · rename_i hlineage
      have hb := (hf.mem_lineage hlive target).1 hlineage
      have hsubtree := (hf.mem_subtree target id).2 ⟨hlive, hb⟩
      cases hs
      obtain ⟨hsignal, hkept⟩ := hc.cancelSubtree (by simp [wait?, ht, hwait]) target
      by_cases hcancel : t.cancelling
      · have hbeing : s.beingCancelled id := by rwa [beingCancelled_eq ht]
        have hstill : Coherent (s.cancelSubtree target) L {id} := by
          refine hsignal.congr_hand fun j => ⟨fun hj => hj.1, ?_⟩
          rintro rfl
          exact ⟨rfl, fun _ => hbeing⟩
        have hlost : Lost s id := ⟨⟨t, ht, hp, hcancel, hwait, hstatus⟩, (hc.loose id rfl).place⟩
        refine (hstill.lose (hlost.of_untouched (hkept id hbeing))).congr_lost fun j => ?_
        simp only [Set.mem_union, Set.mem_singleton_iff, Set.mem_ofPred_eq]
        refine or_congr_right ⟨?_, fun hj => hj.1⟩
        rintro rfl
        exact ⟨rfl, target, rfl, hbeing, hb⟩
      · refine Coherent.spare
          (hsignal.congr_hand fun j => ⟨fun hj => ?_, fun hj => absurd hj (by simp)⟩)
          fun hforsakes => hcancel (hbelow hforsakes).1
        obtain ⟨rfl, hj⟩ := hj
        have hbeing := hj hsubtree
        rw [beingCancelled_eq ht] at hbeing
        exact absurd hbeing hcancel
    · rename_i hlineage
      cases hs
      exact (hanswer.cancelSubtree_of_none target).spare fun hforsakes =>
        hlineage ((hf.mem_lineage hlive target).2 (hbelow hforsakes).2)
  · rename_i htarget
    split at hs
    · cases hs
      exact hanswer.spare fun hforsakes => htarget (hf.isLive_above (hbelow hforsakes).2 hlive)
    · cases hs

/-- Every effect puts its task down, or forsakes it. -/
theorem Coherent.carryOut {id : TaskId} {effect : Effect P W} (hc : Coherent s L {id})
    (htidy : Tidy s) {t : Task P R W} (ht : s.task? id = some t) (hwait : t.wait = .nothing)
    (hstatus : t.status = .running) (hs : s.carryOut h id effect = .ok s') :
    Coherent s' (L ∪ {j | j = id ∧ Forsakes s j effect}) ∅ := by
  have hcalm : (∀ target, effect ≠ .cancel target) → ∀ {r : Scheduler P R W}, Coherent r L ∅ →
      Coherent r (L ∪ {j | j = id ∧ Forsakes s j effect}) ∅ := by
    intro hnot r hr
    refine hr.spare ?_
    rintro ⟨target, he, -⟩
    exact hnot target he
  have hanswer : ∀ v, Coherent (s.answer id v) L ∅ :=
    fun v => (hc.answer rfl v).congr_hand (by simp)
  cases effect with
  | call operation args => cases hs; exact hcalm (by simp) (hc.call operation args)
  | callProcess process args =>
    cases hs
    exact hcalm (by simp) (hc.callProcess htidy.forest h process args)
  | put n => cases hs; exact hcalm (by simp) (hc.put h n)
  | take pattern =>
    cases pattern with
    | channel channel => exact hcalm (by simp) (hc.channelTake hs)
    | _ => cases hs; exact hcalm (by simp) (hc.take _)
  | fork process args =>
    cases hs
    exact hcalm (by simp) (hc.fork htidy.forest h process args)
  | join target => exact hcalm (by simp) (hc.join hs)
  | cancel target => exact hc.cancel htidy.forest ht hwait hstatus hs
  | cancelled => cases hs; exact hcalm (by simp) (hanswer _)
  | all effects => cases hs; exact hcalm (by simp) (hc.startGroup htidy _ _)
  | race branches => cases hs; exact hcalm (by simp) (hc.startGroup htidy _ _)
  | channel policy => cases hs; exact hcalm (by simp) (hc.openChannel policy)
  | channelTake channel => exact hcalm (by simp) (hc.channelTake hs)
  | channelPut channel v => exact hcalm (by simp) (hc.channelPut hs)
  | channelClose channel => exact hcalm (by simp) (hc.channelClose hs)
  | select selector => cases hs; exact hcalm (by simp) (hanswer _)

end CoopTasks.Scheduler

import CoopTasks.Proofs.Channels

/-!
# Fair service at a channel

Who waits to take from a channel is served in the order of asking. A taker that is served has to
ask again, behind all who wait, so it gets no second value before each of them has got one or has
been told that the channel is closed. If all takers come back for more, they are served in turn,
because a put lets the taker run, and ask again, before the putter goes on.
-/

namespace CoopTasks

namespace Channel

variable {c : Channel} {t u : TaskId} {event : Event}

/-- A task waits to take, and another one does not wait before it. -/
def Behind (c : Channel) (t u : TaskId) : Prop :=
  ∃ before after, c.takers = before ++ u :: after ∧ t ∉ before

theorem Behind.without (hb : c.Behind t u) {tasks : List TaskId} (hu : u ∉ tasks) :
    (c.without tasks).Behind t u := by
  obtain ⟨before, after, heq, ht⟩ := hb
  refine ⟨before.filter (· ∉ tasks), after.filter (· ∉ tasks), ?_, fun hm => ?_⟩
  · rw [takers_without, heq]
    simp [hu]
  · exact ht (List.mem_of_mem_filter hm)

/-- The one behind is not served before the other, unless all who wait are sent away. -/
theorem Regular.behind_apply (hc : c.Regular) (hb : c.Behind t u) (hne : u ≠ t)
    (hevent : event.isWithdrawal = false) : (∀ v, c.handed? event ≠ some (t, v)) ∧
      ((∃ v, c.handed? event = some (u, v)) ∨ event = .close ∨ (c.apply event).Behind t u) := by
  obtain ⟨before, after, heq, ht⟩ := hb
  have htakers : c.takers ≠ [] := by simp [heq]
  have hbuffer := (hc.apart htakers).1
  have hopen := hc.open_of_takers htakers
  cases event with
  | put putter value =>
    cases before with
    | nil =>
      have hput := put_of_takers hopen heq putter value
      refine ⟨fun v => ?_, Or.inl ⟨value, by simp [handed?, hput]⟩⟩
      simp [handed?, hput, hne]
    | cons first before =>
      have hput := put_of_takers hopen heq putter value
      obtain ⟨hfirst, hbefore⟩ := not_or.1 (List.mem_cons.not.1 ht)
      refine ⟨fun v => ?_, Or.inr (Or.inr ⟨before, after, by rw [apply_put, hput]; rfl, hbefore⟩)⟩
      simp [handed?, hput, Ne.symm hfirst]
  | take taker =>
    have htake := take_of_empty hopen hbuffer taker
    refine ⟨fun v => by simp [handed?, htake], Or.inr (Or.inr ?_)⟩
    exact ⟨before, after ++ [taker], by simp [htake, heq], ht⟩
  | withdraw task => cases hevent
  | close => exact ⟨fun v => by simp [handed?], Or.inr (Or.inl rfl)⟩

end Channel

namespace Scheduler

variable {P R W : Type} {s s' : Scheduler P R W} {h : Host P R W} {ch : ChannelId} {c : Channel}
variable {event : Channel.Event} {t u : TaskId} {m : Move P} {v : Value}
variable {log : List (Scheduler P R W × Move P)}

/-- In this entry of a log a task is given a value of a channel, by a put or out of the buffer. -/
def receipt? (h : Host P R W) (entry : Scheduler P R W × Move P) :
    Option (ChannelId × TaskId × Value) :=
  (entry.1.dealing? h entry.2).bind fun dealing =>
    (entry.1.channels.find? dealing.1).bind fun c =>
      (c.handed? dealing.2).map fun handed => (dealing.1, handed)

/-- In this entry a task that waits to take is given a value, or is told that the channel is closed.
-/
def Served (h : Host P R W) (entry : Scheduler P R W × Move P) (ch : ChannelId) (id : TaskId) :
    Prop :=
  (∃ v, receipt? h entry = some (ch, id, v)) ∨
    entry.1.dealing? h entry.2 = some (ch, .close) ∧
      (id, .value .closed) ∈ (entry.1.move h entry.2).queue

theorem receipt?_of_dealing (hd : s.dealing? h m = some (ch, event))
    (hc : s.channels.find? ch = some c) :
    receipt? h (s, m) = (c.handed? event).map fun handed => (ch, handed) := by
  simp [receipt?, hd, hc]

theorem dealing_of_receipt? (hr : receipt? h (s, m) = some (ch, t, v)) :
    ∃ event c, s.dealing? h m = some (ch, event) ∧ s.channels.find? ch = some c ∧
      c.handed? event = some (t, v) := by
  obtain ⟨⟨ch', event⟩, hd, hr⟩ := Option.bind_eq_some_iff.1 hr
  obtain ⟨c, hc, hr⟩ := Option.bind_eq_some_iff.1 hr
  obtain ⟨handed, hhanded, heq⟩ := Option.map_eq_some_iff.1 hr
  cases heq
  exact ⟨event, c, hd, hc, hhanded⟩

/-! ## What is queued -/

theorem queue_wakeAll (s : Scheduler P R W) (ids : List TaskId) (v : Value) :
    (s.wakeAll ids v).queue = ids.map (fun id => (id, .value v)) ++ s.queue := by
  have hfold : ∀ (ids : List TaskId) (s : Scheduler P R W),
      (ids.foldl (fun s id => s.answer id v) s).queue =
        (ids.map fun id => (id, Input.value v)).reverse ++ s.queue := by
    intro ids
    induction ids with
    | nil => exact fun _ => rfl
    | cons id rest ih =>
      intro s
      rw [List.foldl_cons, ih]
      simp [answer, wakeFirst, enqueueFirst, makeReady, updateTask]
  rw [wakeAll, hfold]
  simp

/-- A taker that is handed a value runs before the putter goes on. -/
theorem channelPut_delivered (hc : s.channels.find? ch = some c) {putter : TaskId}
    (hput : (c.put putter v).1 = .delivered t) : ∃ s', s.channelPut putter ch v = .ok s' ∧
      s'.queue = (t, .value v) :: (putter, .value .unit) :: s.queue := by
  cases hcase : c.put putter v with
  | mk answer c' =>
    obtain rfl : answer = .delivered t := by rw [← hput, hcase]
    simp only [channelPut, hc, hcase]
    exact ⟨_, rfl, rfl⟩

theorem channelTake_ready (hc : s.channels.find? ch = some c) {unblocked : Option TaskId}
    (htake : (c.take t).1 = .ready v unblocked) : ∃ s' rest, s.channelTake t ch = .ok s' ∧
      s'.queue = (t, .value v) :: rest := by
  cases hcase : c.take t with
  | mk answer c' =>
    obtain rfl : answer = .ready v unblocked := by rw [← htake, hcase]
    simp only [channelTake, hc, hcase]
    cases unblocked <;> exact ⟨_, _, rfl, rfl⟩

theorem channelClose_takers (hc : s.channels.find? ch = some c) (id : TaskId)
    (hm : t ∈ c.takers) : ∃ s', s.channelClose id ch = .ok s' ∧
      (t, .value .closed) ∈ s'.queue := by
  simp only [channelClose, hc]
  refine ⟨_, rfl, ?_⟩
  rw [queue_wakeAll]
  exact List.mem_append_left _ (List.mem_map_of_mem hm)

/-- Nothing but a put, a take or a close is done to a channel by an effect. -/
theorem isWithdrawal_of_dealing? (hd : s.dealing? h m = some (ch, event)) :
    event.isWithdrawal = false := by
  obtain ⟨-, id, effect, -, heffect⟩ := turn_of_dealing? hd
  rcases event_cases heffect s h with ⟨rfl, -⟩ | ⟨v, rfl, -⟩ | ⟨rfl, -⟩ <;> rfl

/-- Who receives a value is first in the queue, with the value. -/
theorem Run.receives (run : Run h log s) (hr : receipt? h (s, m) = some (ch, t, v)) :
    (s.move h m).queue.head? = some (t, .value v) := by
  obtain ⟨event, c, hd, hc, hhanded⟩ := dealing_of_receipt? hr
  obtain ⟨rfl, id, effect, hturn, heffect⟩ := turn_of_dealing? hd
  obtain ⟨-, -, -, -, r, -, -, -, -, -, -, hchannels, -, hmove⟩ := run.event_turn hturn heffect
  have hc' : r.channels.find? ch = some c := by rwa [hchannels]
  rcases event_cases heffect r h with ⟨rfl, heq⟩ | ⟨value, rfl, heq⟩ | ⟨rfl, -⟩
  · obtain ⟨rfl, unblocked, hanswer⟩ :
        id = t ∧ ∃ unblocked, (c.take id).1 = .ready v unblocked := by
      cases hanswer : (c.take id).1 <;> simp_all [Channel.handed?]
    obtain ⟨r', rest, hr', hqueue⟩ := channelTake_ready hc' hanswer
    rw [hmove r' (heq.trans hr'), queue_takeFault, hqueue]
    rfl
  · obtain ⟨hanswer, rfl⟩ : (c.put id value).1 = .delivered t ∧ value = v := by
      cases hanswer : (c.put id value).1 <;> simp_all [Channel.handed?]
    obtain ⟨r', hr', hqueue⟩ := channelPut_delivered hc' hanswer
    rw [hmove r' (heq.trans hr'), queue_takeFault, hqueue]
    rfl
  · cases hhanded

/-- All who wait at a channel that is closed are told so. -/
theorem Run.sent_away (run : Run h log s) (hd : s.dealing? h m = some (ch, .close))
    (hc : s.channels.find? ch = some c) (hm : t ∈ c.takers) :
    (t, .value .closed) ∈ (s.move h m).queue := by
  obtain ⟨rfl, id, effect, hturn, heffect⟩ := turn_of_dealing? hd
  obtain ⟨-, -, -, -, r, -, -, -, -, -, -, hchannels, -, hmove⟩ := run.event_turn hturn heffect
  have hc' : r.channels.find? ch = some c := by rwa [hchannels]
  rcases event_cases heffect r h with ⟨he, -⟩ | ⟨value, he, -⟩ | ⟨-, heq⟩
  · cases he
  · cases he
  · obtain ⟨r', hr', hqueue⟩ := channelClose_takers hc' id hm
    rwa [hmove r' (heq.trans hr'), queue_takeFault]

/-! ## Nobody is passed over -/

/-- A task that waits is not stepped. -/
theorem Run.idle_of_wait (run : Run h log s) {wait : Wait} (hw : s.wait? t = some wait)
    (hne : wait ≠ .nothing) : t ∉ s.active := by
  intro hactive
  obtain ⟨input, hhead⟩ := mem_active.1 hactive
  have hnothing := run.wait_of_queued (List.mem_map_of_mem (List.mem_of_head? hhead))
  exact hne (Option.some.inj (hw.symm.trans hnothing))

theorem Run.wait_of_taker (run : Run h log s) (hc : s.channels.find? ch = some c)
    (hm : t ∈ c.takers) : s.wait? t = some (.channelTake ch) := by
  rw [← waiters_channelTake hc] at hm
  exact (run.coherent.of_mem_waiters hm).2.2.2.1

/-- A taker that is condemned in a move is signalled in it. -/
theorem Run.cancels_of_signalled (run : Run h log s) (hw : s.wait? t = some (.channelTake ch))
    (hs : Signalled s (s.move h m) t) : Cancels h (s, m) t := by
  obtain ⟨u, hu, hp⟩ := run.coherent.process_of_wait hw (by simp)
  obtain ⟨u', hu', -⟩ := run.process_move m (fun _ => run.idle_of_wait hw (by simp)) hu hp
  exact ⟨hs.1, by rw [beingCancelled_eq hu']; exact hs.2.cancelled u' hu'⟩

/-- In a move the one in front gets nothing. The one behind is served or signalled, or stays behind
it. -/
theorem Run.behind_move (run : Run h log s) (hc : s.channels.find? ch = some c)
    (hb : c.Behind t u) (hne : u ≠ t) (m : Move P) :
    (∀ v, receipt? h (s, m) ≠ some (ch, t, v)) ∧
      (Served h (s, m) ch u ∨ Cancels h (s, m) u ∨
        ∃ c', (s.move h m).channels.find? ch = some c' ∧ c'.Behind t u) := by
  have hu : u ∈ c.takers := by
    obtain ⟨before, after, heq, -⟩ := hb
    simp [heq]
  have hw := run.wait_of_taker hc hu
  rcases run.channel_move m hc with ⟨event, hd, heq⟩ | ⟨hidle, tasks, heq, hsignalled⟩
  · obtain ⟨hfront, hcases⟩ :=
      (run.regular hc).behind_apply hb hne (isWithdrawal_of_dealing? hd)
    have hreceipt := receipt?_of_dealing (h := h) hd hc
    refine ⟨fun v hr => ?_, ?_⟩
    · rw [hreceipt] at hr
      obtain ⟨handed, hhanded, he⟩ := Option.map_eq_some_iff.1 hr
      cases he
      exact hfront v hhanded
    · rcases hcases with ⟨v, hhanded⟩ | rfl | hbehind
      · exact Or.inl (Or.inl ⟨v, by rw [hreceipt, hhanded]; rfl⟩)
      · exact Or.inl (Or.inr ⟨hd, run.sent_away hd hc hu⟩)
      · exact Or.inr (Or.inr ⟨_, heq, hbehind⟩)
  · refine ⟨fun v hr => ?_, ?_⟩
    · obtain ⟨event, -, hd, -⟩ := dealing_of_receipt? hr
      exact hidle event hd
    · by_cases hin : u ∈ tasks
      · have hold := run.tidy.forest.fresh u (isLive_of_wait? hw)
        exact Or.inr (Or.inl (run.cancels_of_signalled hw (hsignalled u hin hold).2))
      · exact Or.inr (Or.inr ⟨_, heq, hb.without hin⟩)

/-- Before the one in front receives a value, the one behind is served or signalled. -/
theorem Run.served_first (run : Run h log s) (hc : s.channels.find? ch = some c)
    (hb : c.Behind t u) (hne : u ≠ t) (ms : List (Move P))
    {before after : List (Scheduler P R W × Move P)} {e : Scheduler P R W × Move P}
    (hms : s.history h ms = before ++ e :: after) (hr : receipt? h e = some (ch, t, v)) :
    ∃ entry ∈ before, Served h entry ch u ∨ Cancels h entry u := by
  induction ms generalizing log s c before with
  | nil => simp [history] at hms
  | cons m ms ih =>
    obtain ⟨hfront, hcases⟩ := run.behind_move hc hb hne m
    cases before with
    | nil =>
      obtain ⟨rfl, -⟩ := List.cons.inj hms
      exact absurd hr (hfront v)
    | cons first before =>
      obtain ⟨rfl, hrest⟩ := List.cons.inj hms
      rcases hcases with hserved | hcancels | ⟨c', hc', hb'⟩
      · exact ⟨_, List.mem_cons_self, Or.inl hserved⟩
      · exact ⟨_, List.mem_cons_self, Or.inr hcancels⟩
      · obtain ⟨entry, he, hentry⟩ := ih (run.move m) hc' hb' hrest
        exact ⟨entry, List.mem_cons_of_mem _ he, hentry⟩

/-- After a task has received a value, all who waited with it wait in front of it, or it does not
wait. -/
theorem Run.behind_of_receipt (run : Run h log s) (hr : receipt? h (s, m) = some (ch, t, v))
    (hw : s.wait? u = some (.channelTake ch)) (hne : u ≠ t) :
    ∃ c, (s.move h m).channels.find? ch = some c ∧ c.Behind t u := by
  obtain ⟨event, c, hd, hc, hhanded⟩ := dealing_of_receipt? hr
  obtain ⟨c', hc', hone, -⟩ := ((run.coherent.registered u).channelTake ch).1 hw
  obtain rfl := Option.some.inj (hc.symm.trans hc')
  have hu : u ∈ c.takers := List.count_pos_iff.1 (by omega)
  have hregular := run.regular hc
  have htakers : c.takers ≠ [] := List.ne_nil_of_mem hu
  rcases run.channel_move m hc with ⟨event', hd', heq⟩ | ⟨hidle, -⟩
  · obtain ⟨-, rfl⟩ := Prod.mk.inj (Option.some.inj (hd.symm.trans hd'))
    refine ⟨_, heq, ?_⟩
    cases event with
    | put putter value =>
      have henters := hregular.enters putter value
      obtain ⟨hanswer, rfl⟩ : (c.put putter value).1 = .delivered t ∧ value = v := by
        cases hanswer : (c.put putter value).1 <;> simp_all [Channel.handed?]
      rw [hanswer] at henters
      -- the taker in front is the one that is served
      have hrest : u ∈ (c.put putter value).2.takers := by
        rw [henters.1] at hu
        exact (List.mem_cons.1 hu).resolve_left hne
      have hnodup := run.coherent.nodup_waiters (.channelTake ch)
      rw [waiters_channelTake hc, henters.1] at hnodup
      obtain ⟨front, back, hsplit⟩ := List.append_of_mem hrest
      refine ⟨front, back, hsplit, fun hm => ?_⟩
      exact (List.nodup_cons.1 hnodup).1 (hsplit ▸ List.mem_append_left _ hm)
    | take taker =>
      have hleaves := hregular.leaves taker
      cases hanswer : (c.take taker).1 with
      | ready value unblocked =>
        rw [hanswer] at hleaves
        have hnil := hregular.content_of_takers htakers
        rw [hleaves.1] at hnil
        cases hnil
      | pending => simp [Channel.handed?, hanswer] at hhanded
      | closed => simp [Channel.handed?, hanswer] at hhanded
    | withdraw task => cases hhanded
    | close => cases hhanded
  · exact absurd hd (hidle event)

end Scheduler

end CoopTasks

import CoopTasks.Proofs.Fairness
import Mathlib.Data.List.Rotate

/-!
# Service in turn

Several tasks take from a channel again and again, and one task puts. A put hands the value to the
taker in front and queues it before the putter, so the taker is back at the end of the line when
the next value is put. Hence the takers are served in turn, and no value is left over.
-/

namespace CoopTasks.Scheduler

variable {P R W : Type} {s : Scheduler P R W} {h : Host P R W} {ch : ChannelId} {c : Channel}
variable {event : Channel.Event} {m : Move P} {ts : List TaskId} {t p : TaskId} {v : Value}
variable {V : Set Value} {S : Set (Process P R W)} {k : Nat}
variable {log : List (Scheduler P R W × Move P)}

/-- The values that are put into a channel, whether they get in or not. -/
def putsInto (h : Host P R W) (ch : ChannelId) (log : List (Scheduler P R W × Move P)) :
    List Value :=
  log.filterMap fun entry => (entry.1.dealing? h entry.2).bind fun dealing =>
    if dealing.1 = ch then dealing.2.value? else none

/-- The values of a channel that are received, with the tasks that receive them. -/
def receipts (h : Host P R W) (ch : ChannelId) (log : List (Scheduler P R W × Move P)) :
    List (TaskId × Value) :=
  log.filterMap fun entry => (receipt? h entry).bind fun receipt =>
    if receipt.1 = ch then some receipt.2 else none

/-- The process of a task is one of these. -/
def Runs (s : Scheduler P R W) (t : TaskId) (S : Set (Process P R W)) : Prop :=
  ∃ task process, s.task? t = some task ∧ task.process = some process ∧ process ∈ S

/-- Processes that take from a channel again whenever they are resumed with one of these values. -/
def Loops (h : Host P R W) (ch : ChannelId) (V : Set Value) (S : Set (Process P R W)) : Prop :=
  ∀ process ∈ S, ∀ v ∈ V, ∀ world, ∃ effect,
    (process.step h.program.resume (.value v) world).1 = .yield effect ∧
    (∀ id, effect.event? id = some (ch, .take id)) ∧
    (process.step h.program.resume (.value v) world).2.1 ∈ S

/-- The takers wait in turn; or the one that has got the last value does not wait yet, and is going
to run before the putter. -/
structure Rotating (s : Scheduler P R W) (ch : ChannelId) (ts : List TaskId) (p : TaskId)
    (V : Set Value) (S : Set (Process P R W)) (k : Nat) (c : Channel) : Prop where
  found : s.channels.find? ch = some c
  opened : c.closed = false
  empty : c.buffer = []
  runs : ∀ t ∈ ts, s.Runs t S
  turns : c.takers = ts.rotate k ∨ ∃ t v, v ∈ V ∧ c.takers ++ [t] = ts.rotate k ∧
    Ahead s (t, .value v) (p, .value .unit)

/-! ## What others do -/

theorem Runs.isLive (hr : s.Runs t S) : s.isLive t := by
  obtain ⟨task, -, ht, -⟩ := hr
  simp [isLive_eq, ht]

theorem Runs.mono {S' : Set (Process P R W)} (hr : s.Runs t S) (hsub : S ⊆ S') : s.Runs t S' := by
  obtain ⟨task, process, ht, hp, hS⟩ := hr
  exact ⟨task, process, ht, hp, hsub hS⟩

theorem Run.runs_move (run : Run h log s) (hr : s.Runs t S) (m : Move P)
    (hidle : m = .step → t ∉ s.active) : (s.move h m).Runs t S := by
  obtain ⟨task, process, ht, hp, hS⟩ := hr
  obtain ⟨task', ht', hp', -⟩ := run.process_move m hidle ht (by simp [hp])
  exact ⟨task', process, ht', hp'.trans hp, hS⟩

/-- A task that stays and is not signalled has the flag that it had. -/
theorem Run.same_of_not_cancels (run : Run h log s) (hl : s.isLive t)
    (hl' : (s.move h m).isLive t) (hcalm : ¬Cancels h (s, m) t) :
    (s.move h m).beingCancelled t = s.beingCancelled t := by
  have hid := run.tidy.forest.fresh t hl
  cases hc : s.beingCancelled t with
  | true => exact (run.firm_move m).beingCancelled hl' hid hc
  | false =>
    cases hc' : (s.move h m).beingCancelled t with
    | true => exact absurd ⟨hc, hc'⟩ hcalm
    | false => rfl

/-- A taker whose turn it is has got the last value. -/
theorem Rotating.active (hr : Rotating s ch ts p V S k c) (run : Run h log s) (hin : t ∈ ts)
    (hactive : t ∈ s.active) : ∃ v, v ∈ V ∧ c.takers ++ [t] = ts.rotate k ∧
      s.queue.head? = some (t, .value v) := by
  have hwaits : t ∉ c.takers := fun hm =>
    run.idle_of_wait (run.wait_of_taker hr.found hm) (by simp) hactive
  have hmem : t ∈ ts.rotate k := List.mem_rotate.2 hin
  rcases hr.turns with heq | ⟨x, v, hv, heq, hahead⟩
  · exact absurd (heq ▸ hmem) hwaits
  · rw [← heq] at hmem
    obtain rfl := List.mem_singleton.1 ((List.mem_append.1 hmem).resolve_left hwaits)
    refine ⟨v, hv, heq, ?_⟩
    obtain ⟨input, hhead⟩ := mem_active.1 hactive
    obtain ⟨rest, hq⟩ := List.head?_eq_some_iff.1 hhead
    rw [hhead, run.input_of_head hq (hahead.subset List.mem_cons_self)]

/-- A taker that has got a value takes again on its turn. -/
theorem Rotating.takes (hr : Rotating s ch ts p V S k c) (run : Run h log s)
    (hloops : Loops h ch V S) (hin : t ∈ ts) (hactive : t ∈ s.active) :
    s.dealing? h .step = some (ch, .take t) := by
  obtain ⟨v, hv, -, hhead⟩ := hr.active run hin hactive
  obtain ⟨task, process, ht, hp, hS⟩ := hr.runs t hin
  obtain ⟨effect, hyield, hevent, -⟩ := hloops process hS v hv s.world
  obtain ⟨rest, hq⟩ := List.head?_eq_some_iff.1 hhead
  simp [dealing?, turn?, hq, ht, hp, hyield, hevent]

/-! ## Moves -/

/-- A move that is not about the channel leaves the takers in turn. -/
theorem Rotating.idle (hr : Rotating s ch ts p V S k c) (run : Run h log s)
    (hloops : Loops h ch V S) (hnone : ∀ event, s.dealing? h m ≠ some (ch, event))
    (hcalm : ∀ t ∈ p :: ts, ¬Cancels h (s, m) t) :
    ∃ c', Rotating (s.move h m) ch ts p V S k c' := by
  have hidle : ∀ t ∈ ts, m = .step → t ∉ s.active := by
    rintro t hin rfl hactive
    exact hnone _ (hr.takes run hloops hin hactive)
  have hruns : ∀ t ∈ ts, (s.move h m).Runs t S := fun t hin =>
    run.runs_move (hr.runs t hin) m (hidle t hin)
  have hsame : ∀ t ∈ ts, (s.move h m).beingCancelled t = s.beingCancelled t := fun t hin =>
    run.same_of_not_cancels (hr.runs t hin).isLive (hruns t hin).isLive
      (hcalm t (List.mem_cons_of_mem _ hin))
  rcases run.channel_move m hr.found with ⟨event, hd, -⟩ | ⟨-, tasks, heq, hsignalled⟩
  · exact absurd hd (hnone event)
  have htakers : (c.without tasks).takers = c.takers := by
    rw [Channel.takers_without]
    refine List.filter_eq_self.2 fun t hm => ?_
    have hw := run.wait_of_taker hr.found hm
    have hin : t ∈ ts := by
      rcases hr.turns with hturns | ⟨x, v, -, hturns, -⟩
      · exact List.mem_rotate.1 (hturns ▸ hm)
      · exact List.mem_rotate.1 (hturns ▸ List.mem_append_left _ hm)
    have hold := run.tidy.forest.fresh t (isLive_of_wait? hw)
    refine decide_eq_true fun hmem => hcalm t (List.mem_cons_of_mem _ hin) ?_
    exact run.cancels_of_signalled hw (hsignalled t hmem hold).2
  refine ⟨_, heq, by simpa using hr.opened, by simpa using hr.empty, hruns, ?_⟩
  rw [htakers]
  refine hr.turns.imp id fun ⟨t, v, hv, hturns, hahead⟩ => ⟨t, v, hv, hturns, ?_⟩
  have hin : t ∈ ts := List.mem_rotate.1 (hturns ▸ List.mem_append_right _ List.mem_cons_self)
  have hturn : ¬(m = .step ∧ s.queue.head? = some (t, .value v)) := fun ⟨hm, hhead⟩ =>
    hidle t hin hm (congrArg (Option.map Prod.fst) hhead)
  have hpq : (p, Input.value .unit) ∈ s.queue := hahead.subset (by simp)
  have hp := run.same_of_not_cancels (run.isLive_of_queued hpq)
    (run.isLive_move hpq m ((run.ahead_popped hahead m hturn).2 _ (by simp)))
    (hcalm p List.mem_cons_self)
  refine run.ahead_kept hahead m hturn fun entry he => ?_
  rcases List.mem_cons.1 he with rfl | he
  · exact hsame t hin
  · rw [List.mem_singleton.1 he]
    exact hp

/-- The taker that has got the last value goes to the end of the line. -/
theorem Rotating.take (hr : Rotating s ch ts p V S k c) (run : Run h log s)
    (hloops : Loops h ch V S) (hin : t ∈ ts) (hd : s.dealing? h m = some (ch, .take t)) :
    receipt? h (s, m) = none ∧ ∃ c', Rotating (s.move h m) ch ts p V S k c' := by
  have htake := Channel.take_of_empty hr.opened hr.empty t
  refine ⟨by simp [receipt?_of_dealing hd hr.found, Channel.handed?, htake], ?_⟩
  obtain ⟨rfl, id, effect, hturn, heffect⟩ := turn_of_dealing? hd
  obtain ⟨task, process, input, rest, r, hq, ht, hp, -, ⟨u, hu, hnext⟩, -, hchannels, -,
    hmove⟩ := run.event_turn hturn heffect
  have hfound : r.channels.find? ch = some c := by rw [hchannels, hr.found]
  obtain ⟨rfl, hcarry⟩ : id = t ∧ r.carryOut h id effect = r.channelTake id ch := by
    rcases event_cases heffect r h with ⟨he, hcarry⟩ | ⟨v, he, -⟩ | ⟨he, -⟩ <;> cases he
    exact ⟨rfl, hcarry⟩
  have hactive : id ∈ s.active := by simp [Scheduler.active, hq]
  obtain ⟨v, hv, hturns, hhead⟩ := hr.active run hin hactive
  obtain rfl : input = .value v := by
    rw [hq] at hhead
    exact (Prod.mk.inj (Option.some.inj hhead)).2
  -- the state after the turn, with the taker back in line
  have hdone := hmove _ (hcarry.trans (by simp only [channelTake, hfound, htake]; rfl))
  refine ⟨{ c with takers := c.takers ++ [id] }, ?_, hr.opened, hr.empty, fun j hj => ?_,
    Or.inl hturns⟩
  · rw [hdone, channels_takeFault]
    refine (Table.find?_modify ..).trans ?_
    rw [if_pos rfl, hfound]
    rfl
  · by_cases hji : j = id
    · subst hji
      obtain ⟨task', process', ht', hp', hS⟩ := hr.runs j hj
      obtain rfl := Option.some.inj (ht.symm.trans ht')
      obtain rfl := Option.some.inj (hp.symm.trans hp')
      obtain ⟨-, -, -, hstays⟩ := hloops process hS v hv s.world
      refine ⟨{ u with wait := .channelTake ch, status := .waiting }, _, ?_, hnext, hstays⟩
      rw [hdone, task?_of_tasks (tasks_takeFault _)]
      have hu' : (r.setChannel ch { c with takers := c.takers ++ [j] }).task? j = some u := hu
      simp [suspend, hu']
    · exact run.runs_move (hr.runs j hj) .step fun _ hj' =>
        hji (by simpa [Scheduler.active, hq] using hj'.symm)

/-- A value that is put goes to the taker whose turn it is, which is going to run before the putter.
-/
theorem Rotating.put (hr : Rotating s ch ts p V S k c) (run : Run h log s) (hp : p ∉ ts)
    (hne : ts ≠ []) (hv : v ∈ V) (hd : s.dealing? h m = some (ch, .put p v)) :
    ∃ t, receipt? h (s, m) = some (ch, t, v) ∧ ts[k % ts.length]? = some t ∧
      ∃ c', Rotating (s.move h m) ch ts p V S (k + 1) c' := by
  obtain ⟨rfl, id, effect, hturn, heffect⟩ := turn_of_dealing? hd
  obtain ⟨-, -, input, rest, r, hq, -, -, -, -, hqueue, hchannels, -, hmove⟩ :=
    run.event_turn hturn heffect
  have hfound : r.channels.find? ch = some c := by rw [hchannels, hr.found]
  obtain ⟨rfl, hcarry⟩ : id = p ∧ r.carryOut h id effect = r.channelPut id ch v := by
    rcases event_cases heffect r h with ⟨he, -⟩ | ⟨w, he, hcarry⟩ | ⟨he, -⟩ <;> cases he
    exact ⟨rfl, hcarry⟩
  have hactive : ∀ t ∈ ts, t ∉ s.active := fun t hin hactive => by
    obtain rfl : t = id := by simpa [Scheduler.active, hq] using hactive.symm
    exact hp hin
  -- the putter does not run before the taker that has got the last value
  have hturns : c.takers = ts.rotate k := by
    refine hr.turns.resolve_right ?_
    rintro ⟨t, w, -, hturns, hahead⟩
    have hin : t ∈ ts := List.mem_rotate.1 (hturns ▸ List.mem_append_right _ List.mem_cons_self)
    have hhead : s.queue.head? ≠ some (t, .value w) := fun hhead =>
      hactive t hin (congrArg (Option.map Prod.fst) hhead)
    have hidle := (run.ahead_popped hahead .step fun hturn => hhead hturn.2).2
    exact hidle (id, .value .unit) (by simp) rfl (by simp [Scheduler.active, hq])
  obtain ⟨t, takers, htakers⟩ := List.exists_cons_of_ne_nil
    (show c.takers ≠ [] by rw [hturns]; simpa using hne)
  have hput := Channel.put_of_takers hr.opened htakers id v
  obtain ⟨r', hr', hqueue'⟩ := channelPut_delivered hfound (by rw [hput])
  obtain ⟨r'', hr'', hchannels'⟩ := channels_channelPut hfound id v
  obtain rfl := Except.ok.inj (hr'.symm.trans hr'')
  have hdone := hmove r' (hcarry.trans hr')
  refine ⟨t, by simp [receipt?_of_dealing hd hr.found, Channel.handed?, hput], ?_,
    { c with takers }, ?_, hr.opened, hr.empty, fun j hj => ?_, Or.inr ⟨t, v, hv, ?_, ?_⟩⟩
  · have hlength := Nat.mod_lt k (List.length_pos_iff.2 hne)
    rw [← List.head?_rotate hlength, List.rotate_mod, ← hturns, htakers]
    rfl
  · rw [hdone, channels_takeFault, hchannels', Table.find?_modify, if_pos rfl, hfound, hput]
    rfl
  · exact run.runs_move (hr.runs j hj) .step fun _ => hactive j hj
  · rw [← List.rotate_rotate, ← hturns, htakers]
    simp
  · rw [Ahead, hdone, queue_takeFault, hqueue']
    exact ((List.nil_sublist _).cons_cons _).cons_cons _

/-! ## Runs -/

/-- Nothing is done to the channel but takes by the takers and puts by the putter, and none of them
is signalled. -/
structure Undisturbed (h : Host P R W) (ch : ChannelId) (ts : List TaskId) (p : TaskId)
    (entry : Scheduler P R W × Move P) : Prop where
  own : ∀ event, entry.1.dealing? h entry.2 = some (ch, event) →
    (∃ t ∈ ts, event = .take t) ∨ ∃ v, event = .put p v
  calm : ∀ t ∈ p :: ts, ¬Cancels h entry t

theorem putsInto_cons (entry : Scheduler P R W × Move P)
    (hist : List (Scheduler P R W × Move P)) :
    putsInto h ch (entry :: hist) = putsInto h ch [entry] ++ putsInto h ch hist :=
  List.filterMap_append (l := [entry])

theorem receipts_cons (entry : Scheduler P R W × Move P)
    (hist : List (Scheduler P R W × Move P)) :
    receipts h ch (entry :: hist) = receipts h ch [entry] ++ receipts h ch hist :=
  List.filterMap_append (l := [entry])

/-- In a move nothing is put or received, or the next value is, by the taker whose turn it is. -/
theorem Rotating.move (hr : Rotating s ch ts p V S k c) (run : Run h log s) (hp : p ∉ ts)
    (hne : ts ≠ []) (hloops : Loops h ch V S) (hundisturbed : Undisturbed h ch ts p (s, m))
    (hV : ∀ v ∈ putsInto h ch [(s, m)], v ∈ V) :
    (putsInto h ch [(s, m)] = [] ∧ receipts h ch [(s, m)] = [] ∧
      ∃ c', Rotating (s.move h m) ch ts p V S k c') ∨
    ∃ t v, putsInto h ch [(s, m)] = [v] ∧ receipts h ch [(s, m)] = [(t, v)] ∧
      ts[k % ts.length]? = some t ∧ ∃ c', Rotating (s.move h m) ch ts p V S (k + 1) c' := by
  by_cases hd : ∃ event, s.dealing? h m = some (ch, event)
  · obtain ⟨event, hd⟩ := hd
    rcases hundisturbed.own event hd with ⟨t, hin, rfl⟩ | ⟨v, rfl⟩
    · obtain ⟨hreceipt, hnext⟩ := hr.take run hloops hin hd
      have hputs : putsInto h ch [(s, m)] = [] := by simp [putsInto, hd, Channel.Event.value?]
      exact Or.inl ⟨hputs, by simp [receipts, hreceipt], hnext⟩
    · have hputs : putsInto h ch [(s, m)] = [v] := by simp [putsInto, hd, Channel.Event.value?]
      obtain ⟨t, hreceipt, hturn, hnext⟩ :=
        hr.put run hp hne (hV v (by simp [hputs])) hd
      exact Or.inr ⟨t, v, hputs, by simp [receipts, hreceipt], hturn, hnext⟩
  · have hnone : ∀ event, s.dealing? h m ≠ some (ch, event) := fun event he => hd ⟨event, he⟩
    refine Or.inl ⟨?_, ?_, hr.idle run hloops hnone hundisturbed.calm⟩
    · simp only [putsInto, List.filterMap_cons, List.filterMap_nil]
      cases hdealing : s.dealing? h m with
      | none => rfl
      | some dealing =>
        have hch : dealing.1 ≠ ch := fun he => hnone dealing.2 (by rw [hdealing, ← he])
        simp [hch]
    · simp only [receipts, List.filterMap_cons, List.filterMap_nil]
      cases hreceipt : receipt? h (s, m) with
      | none => rfl
      | some receipt =>
        obtain ⟨ch', t, v⟩ := receipt
        obtain ⟨event, -, hdealing, -⟩ := dealing_of_receipt? hreceipt
        have hch : ch' ≠ ch := by
          rintro rfl
          exact hnone event hdealing
        simp [hch]

/-- Along a run the values are received as they are put, by the takers in turn. -/
theorem Rotating.moves (hr : Rotating s ch ts p V S k c) (run : Run h log s) (hp : p ∉ ts)
    (hne : ts ≠ []) (hloops : Loops h ch V S) (ms : List (Move P))
    (hundisturbed : ∀ entry ∈ s.history h ms, Undisturbed h ch ts p entry)
    (hV : ∀ v ∈ putsInto h ch (s.history h ms), v ∈ V) :
    (receipts h ch (s.history h ms)).map Prod.snd = putsInto h ch (s.history h ms) ∧
    (∀ i t v, (receipts h ch (s.history h ms))[i]? = some (t, v) →
      ts[(k + i) % ts.length]? = some t) ∧
    ∃ k' c', Rotating (s.moves h ms) ch ts p V S k' c' := by
  induction ms generalizing log s k c with
  | nil => exact ⟨rfl, by simp [receipts, history], k, c, hr⟩
  | cons m ms ih =>
    simp only [history, List.forall_mem_cons] at hundisturbed
    rw [history, putsInto_cons] at hV
    rw [history, putsInto_cons, receipts_cons, List.map_append]
    rw [List.forall_mem_append] at hV
    rcases hr.move run hp hne hloops hundisturbed.1 hV.1 with
      ⟨hputs, hreceipts, c', hr'⟩ | ⟨t, v, hputs, hreceipts, hturn, c', hr'⟩
    · obtain ⟨hsame, hturns, hlast⟩ := ih hr' (run.move m) hundisturbed.2 hV.2
      rw [hputs, hreceipts]
      exact ⟨hsame, hturns, hlast⟩
    · obtain ⟨hsame, hturns, hlast⟩ := ih hr' (run.move m) hundisturbed.2 hV.2
      rw [hputs, hreceipts]
      refine ⟨by simp [hsame], fun i j w hi => ?_, hlast⟩
      cases i with
      | zero =>
        cases hi
        exact hturn
      | succ i =>
        rw [show k + (i + 1) = k + 1 + i by omega]
        exact hturns i j w hi

/-- A task that receives two values of a channel does not receive the second one before all who
waited when it received the first have been served, or signalled. So if all who wait come back for
more and one task puts, whatever else goes on, the values are received as they are put, one after
the other, by the takers in turn, and none is left over. -/
theorem Run.fair_service (run : Run h log s) (ch : ChannelId) :
    (∀ m t v, receipt? h (s, m) = some (ch, t, v) →
      (s.move h m).queue.head? = some (t, .value v) ∧
      ∀ u, u ≠ t → s.wait? u = some (.channelTake ch) →
        ∀ ms before e after w, (s.move h m).history h ms = before ++ e :: after →
          receipt? h e = some (ch, t, w) →
          ∃ entry ∈ before, Served h entry ch u ∨ Cancels h entry u) ∧
    ∀ c p S ms, s.channels.find? ch = some c → c.takers ≠ [] → p ∉ c.takers →
      (∀ t ∈ c.takers, s.Runs t S) →
      Loops h ch {v | v ∈ putsInto h ch (s.history h ms)} S →
      (∀ entry ∈ s.history h ms, Undisturbed h ch c.takers p entry) →
      (receipts h ch (s.history h ms)).map Prod.snd = putsInto h ch (s.history h ms) ∧
      (∀ k t v, (receipts h ch (s.history h ms))[k]? = some (t, v) →
        c.takers[k % c.takers.length]? = some t) ∧
      ∃ c', (s.moves h ms).channels.find? ch = some c' ∧ c'.content = [] := by
  refine ⟨fun m t v hreceipt => ⟨run.receives hreceipt, ?_⟩, ?_⟩
  · intro u hne hwait ms before e after w hms hagain
    obtain ⟨c, hc, hbehind⟩ := run.behind_of_receipt hreceipt hwait hne
    exact (run.move m).served_first hc hbehind hne ms hms hagain
  · intro c p S ms hc hne hp hruns hloops hundisturbed
    have hregular := run.regular hc
    have hr : Rotating s ch c.takers p {v | v ∈ putsInto h ch (s.history h ms)} S 0 c :=
      ⟨hc, hregular.open_of_takers hne, (hregular.apart hne).1, hruns,
        Or.inl (List.rotate_zero _).symm⟩
    obtain ⟨hsame, hturns, k', c', hlast⟩ :=
      hr.moves run hp hne hloops ms hundisturbed fun v hv => hv
    refine ⟨hsame, fun k t v hk => ?_, c', hlast.found, ?_⟩
    · have hturn := hturns k t v hk
      rwa [Nat.zero_add] at hturn
    · exact ((run.moves ms).regular hlast.found).content_eq_nil.2 hlast.empty

/-- Two takers wait, and a putter is about to begin. -/
def marketDay : Scheduler Trader Unit Unit :=
  marketAfter [.enroll .opener [], .step, .step, .enroll .taker [], .enroll .taker [], .step, .step,
    .enroll .putter []]

theorem marketDay_dealings :
    (marketDay.history market (List.replicate 7 .step)).map
        (fun entry => entry.1.dealing? market entry.2) =
      [some (⟨1⟩, .put ⟨4⟩ .unit), some (⟨1⟩, .take ⟨2⟩), some (⟨1⟩, .put ⟨4⟩ (.bool true)),
        some (⟨1⟩, .take ⟨3⟩), some (⟨1⟩, .put ⟨4⟩ (.bool false)), some (⟨1⟩, .take ⟨2⟩),
        none] := by
  rfl

theorem marketDay_calm :
    ((marketDay.history market (List.replicate 7 .step)).all fun entry =>
      [⟨4⟩, ⟨2⟩, ⟨3⟩].all fun t => !(entry.1.move market entry.2).beingCancelled t) = true := by
  rfl

theorem marketDay_undisturbed :
    ∀ entry ∈ marketDay.history market (List.replicate 7 .step),
      Undisturbed market ⟨1⟩ [⟨2⟩, ⟨3⟩] ⟨4⟩ entry := by
  refine fun entry he => ⟨fun event hd => ?_, fun t ht hcancels => ?_⟩
  · have hm := List.mem_map_of_mem (f := fun entry => entry.1.dealing? market entry.2) he
    rw [marketDay_dealings, hd] at hm
    simp only [List.mem_cons, List.not_mem_nil, Option.some.injEq, Prod.mk.injEq, true_and,
      reduceCtorEq, or_false] at hm
    rcases hm with rfl | rfl | rfl | rfl | rfl | rfl <;> simp
  · have hcalm := List.all_eq_true.1 (List.all_eq_true.1 marketDay_calm entry he) t ht
    rw [hcancels.2] at hcalm
    cases hcalm

/-- The two takers are served in turn, and the second one before the first is served again. -/
theorem fair_service_market :
    let log := marketDay.history market (List.replicate 7 .step)
    (receipts market ⟨1⟩ log).map Prod.snd = [.unit, .bool true, .bool false] ∧
    (∀ k t v, (receipts market ⟨1⟩ log)[k]? = some (t, v) → [⟨2⟩, ⟨3⟩][k % 2]? = some t) ∧
    ∃ entry ∈ (log.drop 1).take 3, Served market entry ⟨1⟩ ⟨3⟩ ∨ Cancels market entry ⟨3⟩ := by
  intro log
  have run : Run market _ marketDay := marketAfter_run _
  have hfair := run.fair_service ⟨1⟩
  have hloops : ∀ V, Loops market ⟨1⟩ V {.routine ()} := by
    rintro V process rfl v - w
    exact ⟨.channelTake ⟨1⟩, rfl, fun id => rfl, rfl⟩
  have hruns : ∀ t ∈ [⟨2⟩, ⟨3⟩], marketDay.Runs t {.routine ()} := by
    simp only [List.forall_mem_cons, List.not_mem_nil, false_imp_iff, implies_true, and_true]
    exact ⟨⟨_, _, rfl, rfl, rfl⟩, ⟨_, _, rfl, rfl, rfl⟩⟩
  have hwait : marketDay.channels.find? ⟨1⟩ =
      some { policy := .unbounded, takers := [⟨2⟩, ⟨3⟩] } := rfl
  obtain ⟨hsame, hturns, -⟩ := hfair.2 _ ⟨4⟩ {.routine ()} (List.replicate 7 .step) hwait
    (List.cons_ne_nil _ _) (by simp) hruns (hloops _) marketDay_undisturbed
  obtain ⟨-, hserved⟩ := hfair.1 .step ⟨2⟩ .unit rfl
  refine ⟨hsame.trans rfl, hturns, ?_⟩
  exact hserved ⟨3⟩ (by simp) rfl (List.replicate 6 .step) _ _ _ (.bool false) rfl rfl

end CoopTasks.Scheduler

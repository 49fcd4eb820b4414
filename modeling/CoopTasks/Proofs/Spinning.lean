import CoopTasks.Proofs.Recital
import CoopTasks.Proofs.Succession

/-!
# Watchers that spin

A watcher answers what it is given with a fork, and comes back to listening within three turns. As
long as the channel that it listens to is open, or still holds values, it waits there or is given
the next value. When the channel is closed and has run dry, it is told so at once and listens again,
without end: no other task gets a turn, and every run uses up its budget.
-/

namespace CoopTasks

variable {P R W : Type}

namespace Process

variable {resume : R → Input → W → Step P W × R × W} {process next : Process P R W} {input : Input}
variable {pattern : Pattern} {world : W} {effect : Effect P W}

/-- The watchers on a pattern. -/
def watchers (pattern : Pattern) : Set (Process P R W) :=
  {p | (∃ worker args forking, p = .watchEvery pattern worker args forking) ∨
    ∃ worker args stage, p = .watchLatest pattern worker args stage}

/-- The watchers on a pattern that go on when they are given a notification. -/
def listeners (pattern : Pattern) : Set (Process P R W) :=
  {p | (∃ worker args, p = .watchEvery pattern worker args false) ∨
    ∃ worker args current, p = .watchLatest pattern worker args (.listening current)}

/-- The number of turns until a watcher listens again, at most. -/
def span : Process P R W → Nat
  | .watchEvery _ _ _ false => 2
  | .watchEvery _ _ _ true => 1
  | .watchLatest _ _ _ (.listening _) => 3
  | .watchLatest _ _ _ (.cancelling _) => 2
  | .watchLatest _ _ _ .forking => 1
  | _ => 0

theorem listeners_subset (pattern : Pattern) :
    listeners pattern ⊆ (watchers pattern : Set (Process P R W)) := by
  rintro p (⟨worker, args, rfl⟩ | ⟨worker, args, current, rfl⟩)
  · exact .inl ⟨worker, args, false, rfl⟩
  · exact .inr ⟨worker, args, _, rfl⟩

theorem span_pos (hp : process ∈ watchers pattern) : 1 ≤ process.span := by
  rcases hp with ⟨worker, args, forking, rfl⟩ | ⟨worker, args, stage, rfl⟩
  · cases forking <;> simp [span]
  · cases stage <;> simp [span]

theorem span_le (process : Process P R W) : process.span ≤ 3 := by
  unfold span
  split <;> omega

/-- In a turn in which it does not end a watcher listens, or comes closer to it. -/
inductive WatcherTurn (pattern : Pattern) (process : Process P R W) :
    Effect P W → Process P R W → Prop where
  | listens {next : Process P R W} : next ∈ listeners pattern →
      WatcherTurn pattern process (.take pattern) next
  | nears {effect : Effect P W} {next : Process P R W} : (∀ id, effect.event? id = none) →
      next ∈ watchers pattern → next.span < process.span → WatcherTurn pattern process effect next

/-- A watcher that forks for every notification forks, or listens. -/
theorem stepEvery_cases (pattern : Pattern) (worker : P) (args : List Value) (forking : Bool)
    (v : Value) :
    forking = false ∧ (stepEvery pattern worker args forking v : Step P W × Process P R W) =
        (.yield (.fork worker (args ++ [v])), .watchEvery pattern worker args true) ∨
      (stepEvery pattern worker args forking v : Step P W × Process P R W) =
        (.yield (.take pattern), .watchEvery pattern worker args false) := by
  unfold stepEvery
  split
  · exact .inl ⟨rfl, rfl⟩
  · exact .inr rfl

theorem watcher_turn (hp : process ∈ watchers pattern)
    (hyield : (process.step resume input world).1 = .yield effect) :
    WatcherTurn pattern process effect (process.step resume input world).2.1 := by
  rcases hp with ⟨worker, args, forking, rfl⟩ | ⟨worker, args, stage, rfl⟩
  · cases input with
    | error e => cases hyield
    | value v =>
      simp only [step] at hyield ⊢
      rcases stepEvery_cases (R := R) (W := W) pattern worker args forking v with
        ⟨rfl, heq⟩ | heq <;> rw [heq] at hyield ⊢ <;> cases hyield
      · exact .nears (fun _ => rfl) (.inl ⟨worker, args, true, rfl⟩) (by simp [span])
      · exact .listens (.inl ⟨worker, args, rfl⟩)
  · obtain ⟨v, stage', rfl, hnext, hturn⟩ := latest_turn hyield
    rw [hnext]
    cases hturn with
    | listens current v => exact .listens (.inr ⟨worker, args, current, rfl⟩)
    | minds task => exact .listens (.inr ⟨worker, args, some task, rfl⟩)
    | cancels | forks | replaces =>
      exact .nears (fun _ => rfl) (.inr ⟨worker, args, _, rfl⟩) (by simp [span])

/-- What is not a notification makes a watcher listen again. -/
theorem listener_step (hp : process ∈ listeners pattern) :
    process.step resume (.value .closed) world = (.yield (.take pattern), process, world) := by
  rcases hp with ⟨worker, args, rfl⟩ | ⟨worker, args, current, rfl⟩
  · rfl
  · cases current <;> rfl

end Process

/-- A channel that answers a taker with its end is closed and has run dry. -/
theorem Channel.dry_of_take {c : Channel} {taker : TaskId} (htake : (c.take taker).1 = .closed) :
    c.closed = true ∧ c.buffer = [] := by
  unfold take at htake
  split at htake
  · split at htake <;> cases htake
  · rename_i hbuffer
    split at htake
    · exact ⟨‹_›, hbuffer⟩
    · cases htake

theorem Channel.take_of_dry {c : Channel} (hclosed : c.closed = true) (hdry : c.buffer = [])
    (taker : TaskId) : c.take taker = (.closed, c) := by
  simp [take, hclosed, hdry]

namespace Scheduler

variable {s : Scheduler P R W} {h : Host P R W} {m : Move P} {t : TaskId} {ch : ChannelId}
variable {pattern : Pattern} {process : Process P R W} {input : Input} {effect : Effect P W}
variable {log : List (Scheduler P R W × Move P)} {ms : List (Move P)}

/-! ## What becomes of a task that listens -/

/-- The task is suspended on a TAKE. -/
def Paused (s : Scheduler P R W) (t : TaskId) : Prop :=
  s.wait? t = some .take ∨ ∃ ch, s.wait? t = some (.channelTake ch)

/-- The channel is closed and has run dry. -/
def Shut (s : Scheduler P R W) (ch : ChannelId) : Prop :=
  ∃ c, s.channels.find? ch = some c ∧ c.closed = true ∧ c.buffer = []

/-- In this entry of a log a task takes from a channel that is closed and has run dry. -/
def TurnedAway (h : Host P R W) (e : Scheduler P R W × Move P) (ch : ChannelId) (t : TaskId) :
    Prop :=
  e.1.dealing? h e.2 = some (ch, .take t) ∧ e.1.Shut ch

/-- The values of channels that a task is given. -/
def givenTo (h : Host P R W) (t : TaskId) (log : List (Scheduler P R W × Move P)) : List Value :=
  log.filterMap fun e => (receipt? h e).bind fun receipt =>
    if receipt.2.1 = t then some receipt.2.2 else none

theorem dealing?_of_turn {dealing : ChannelId × Channel.Event}
    (hturn : s.turn? h = some (t, .yield effect)) (heffect : effect.event? t = some dealing) :
    s.dealing? h .step = some dealing := by
  simp [dealing?, hturn, heffect]

theorem wait?_of_suspend (hl : s.isLive t) (wait : Wait) :
    (s.suspend t wait).takeFault.2.wait? t = some wait := by
  obtain ⟨u, hu⟩ := Option.isSome_iff_exists.1 hl
  have hwait : s.wait? t = some u.wait := congrArg (Option.map Task.wait) hu
  rw [wait?, task?_of_tasks (tasks_takeFault _), ← wait?, wait?_suspend, if_pos rfl, hwait]
  rfl

/-- A task that takes from a channel is suspended, or is given a value, or is turned away; or the
channel was never opened, and the task ends. -/
theorem Run.channel_turn (run : Run h log s) (hturn : s.turn? h = some (t, .yield effect))
    (heffect : effect.event? t = some (ch, .take t)) :
    Paused (s.move h .step) t ∨ (∃ v, receipt? h (s, .step) = some (ch, t, v)) ∨
      TurnedAway h (s, .step) ch t ∨ (s.move h .step).Over t := by
  have hdealing : s.dealing? h .step = some (ch, .take t) := dealing?_of_turn hturn heffect
  cases hc : s.channels.find? ch with
  | none =>
    have hbreach : Breaches h s t (.unknownChannel ch) := .channel hturn heffect hc
    exact .inr (.inr (.inr (run.over_of_ending (run.breaches_iff.1 hbreach))))
  | some c =>
    have hreceipt := receipt?_of_dealing (h := h) hdealing hc
    cases hanswer : c.take t with
    | mk answer c' =>
      cases answer with
      | ready v unblocked =>
        exact .inr (.inl ⟨v, by simp [hreceipt, Channel.handed?, hanswer]⟩)
      | closed => exact .inr (.inr (.inl ⟨hdealing, c, hc, Channel.dry_of_take (by rw [hanswer])⟩))
      | pending =>
        obtain ⟨-, -, -, -, r, -, -, -, -, ⟨u, hu, -⟩, -, hchannels, -, hmove⟩ :=
          run.event_turn hturn heffect
        have hc' : r.channels.find? ch = some c := by rwa [hchannels]
        rcases event_cases heffect r h with ⟨-, heq⟩ | ⟨v, he, -⟩ | ⟨he, -⟩
        · have htake : r.channelTake t ch =
              .ok ((r.setChannel ch c').suspend t (.channelTake ch)) := by
            simp [channelTake, hc', hanswer]
          have hl : (r.setChannel ch c').isLive t := by
            show (r.task? t).isSome
            simp [hu]
          rw [hmove _ (heq.trans htake)]
          exact .inl (.inr ⟨ch, wait?_of_suspend hl _⟩)
        · cases he
        · cases he

/-- A task that listens is suspended, or is given a value at once, or is turned away, or ends. -/
theorem Run.take_turn (run : Run h log s) (hturn : s.turn? h = some (t, .yield (.take pattern))) :
    Paused (s.move h .step) t ∨ (∃ ch v, receipt? h (s, .step) = some (ch, t, v)) ∨
      (∃ ch, TurnedAway h (s, .step) ch t) ∨ (s.move h .step).Over t := by
  by_cases hpattern : ∃ ch, pattern = .channel ch
  · obtain ⟨ch, rfl⟩ := hpattern
    rcases run.channel_turn hturn rfl with hpaused | ⟨v, hgiven⟩ | haway | hover
    · exact .inl hpaused
    · exact .inr (.inl ⟨ch, v, hgiven⟩)
    · exact .inr (.inr (.inl ⟨ch, haway⟩))
    · exact .inr (.inr (.inr hover))
  · obtain ⟨r, hr⟩ := yielded_of_turn hturn rfl
    obtain ⟨u, process, -, -, hstored⟩ := hr.self
    have hl : isLive { r with takers := r.takers ++ [(t, pattern)] } t := by
      show (r.task? t).isSome
      simp [hstored]
    rw [hr.move _ (carryOut_take r h t fun c hc => hpattern ⟨c, hc⟩)]
    exact .inl (.inl (wait?_of_suspend hl _))

/-! ## Turns until a watcher listens -/

theorem givenTo_cons (h : Host P R W) (t : TaskId) (e : Scheduler P R W × Move P)
    (log : List (Scheduler P R W × Move P)) :
    (givenTo h t log).length ≤ (givenTo h t (e :: log)).length :=
  ((List.sublist_cons_self e log).filterMap _).length_le

theorem givenTo_receipt {e : Scheduler P R W × Move P} {v : Value}
    (hreceipt : receipt? h e = some (ch, t, v)) :
    givenTo h t (e :: log) = v :: givenTo h t log := by
  simp [givenTo, hreceipt]

/-- On its turn a watcher ends, is suspended, comes closer to listening, or is given a value of the
channel, unless it is turned away. -/
theorem Run.watcher_moves (run : Run h log s) (hruns : s.Runs t {process})
    (hp : process ∈ Process.watchers pattern) (hhead : s.queue.head? = some (t, input))
    (haway : ∀ ch, ¬TurnedAway h (s, .step) ch t) :
    (s.move h .step).Over t ∨ Paused (s.move h .step) t ∨
      (s.move h .step).Runs t {p | p ∈ Process.watchers pattern ∧ p.span < process.span} ∨
      (∃ ch v, receipt? h (s, .step) = some (ch, t, v)) ∧
        (s.move h .step).Runs t (Process.watchers pattern) := by
  have hturn := turn_of_head (h := h) hhead hruns
  cases hanswer : (process.step h.program.resume input s.world).1 with
  | done v | failed e =>
    rw [hanswer] at hturn
    have hended := ended_of_turn run.tidy hturn rfl
    exact .inl ⟨Nat.lt_of_lt_of_le hended.1 (later_move s h .step).next, hended.2⟩
  | yield effect =>
    rw [hanswer] at hturn
    have hwatcher := Process.watcher_turn hp hanswer
    rcases run.goes_on hruns hhead hanswer with ⟨u, p, hu, hup, rfl⟩ | hover
    · cases hwatcher with
      | nears _ hnext hspan => exact .inr (.inr (.inl ⟨u, _, hu, hup, hnext, hspan⟩))
      | listens hnext =>
        rcases run.take_turn hturn with hpaused | hgiven | ⟨ch, hch⟩ | hover
        · exact .inr (.inl hpaused)
        · exact .inr (.inr (.inr ⟨hgiven, u, _, hu, hup, Process.listeners_subset pattern hnext⟩))
        · exact absurd hch (haway ch)
        · exact .inl hover
    · exact .inl hover

/-- A watcher that is not suspended is stepped no more often than it takes to listen again, and
three times more for each value that it is given meanwhile. -/
theorem Run.turns_le (run : Run h log s) (hruns : s.Runs t {process})
    (hp : process ∈ Process.watchers pattern)
    (hms : ∀ e ∈ s.history h ms, ¬Paused e.1 t ∧ ∀ ch, ¬TurnedAway h e ch t) :
    (inputsOf t (s.history h ms)).length ≤
      process.span + 3 * (givenTo h t (s.history h ms)).length := by
  induction ms generalizing log s process with
  | nil => exact Nat.zero_le _
  | cons m ms ih =>
    obtain ⟨hfirst, hrest⟩ := List.forall_mem_cons.1 hms
    have hpos := Process.span_pos hp
    have hgiven := givenTo_cons h t (s, m) ((s.move h m).history h ms)
    rw [history, ← List.singleton_append, inputsOf_append, List.singleton_append,
      List.length_append]
    by_cases hactive : m = .step ∧ t ∈ s.active
    · obtain ⟨rfl, hactive⟩ := hactive
      obtain ⟨input, hhead⟩ := mem_active.1 hactive
      rw [inputsOf_turn hhead, List.length_singleton]
      -- the span pays for the turns until it listens, and a value for the span after that
      rcases run.watcher_moves hruns hp hhead hfirst.2 with
        hover | hpaused | ⟨u, next, hu, hup, hnext, hspan⟩ |
          ⟨⟨ch, v, hreceipt⟩, u, next, hu, hup, hnext⟩
      · rw [hover.given_nothing (run.move .step), List.length_nil]
        omega
      · cases ms with
        | nil =>
          simp only [history, inputsOf, turns_nil, List.filterMap_nil, List.length_nil]
          omega
        | cons m' ms => exact absurd hpaused (hrest _ List.mem_cons_self).1
      · have hle := ih (run.move .step) ⟨u, next, hu, hup, rfl⟩ hnext hrest
        omega
      · have hle := ih (run.move .step) ⟨u, next, hu, hup, rfl⟩ hnext hrest
        have hspan := next.span_le
        rw [givenTo_receipt hreceipt, List.length_cons]
        omega
    · have hidle : m = .step → t ∉ s.active := fun hstep hin => hactive ⟨hstep, hin⟩
      rw [inputsOf_other hidle, List.length_nil]
      have hle := ih (run.move m) (run.runs_move hruns m hidle) hp hrest
      omega

/-! ## A watcher that spins -/

/-- A watcher is barred from its channel: it has been told that the channel is closed, and there is
nothing left to take. -/
structure Barred (s : Scheduler P R W) (t : TaskId) (ch : ChannelId) : Prop where
  queued : (t, .value .closed) ∈ s.queue
  runs : s.Runs t (Process.listeners (.channel ch))
  shut : s.Shut ch

/-- Nobody else is stepped before it. -/
structure Spinning (s : Scheduler P R W) (t : TaskId) (ch : ChannelId) : Prop
    extends Barred s t ch where
  head : s.queue.head? = some (t, .value .closed)

theorem Run.shut_move (run : Run h log s) (hshut : s.Shut ch) (m : Move P) :
    (s.move h m).Shut ch := by
  obtain ⟨c, hc, hclosed, hdry⟩ := hshut
  obtain ⟨c', hc', hclosed', hle⟩ := run.closed_moves hc hclosed [m]
  rw [hdry] at hle
  exact ⟨c', hc', hclosed', List.eq_nil_of_length_eq_zero (Nat.le_zero.1 hle)⟩

/-- A watcher that is turned away listens to the channel that has turned it away. -/
theorem Run.listens_of_away (run : Run h log s) (hturn : s.turn? h = some (t, .yield effect))
    (heffect : effect.event? t = some (ch, .take t))
    (hruns : s.Runs t (Process.watchers pattern)) :
    (s.move h .step).Runs t (Process.listeners (.channel ch)) ∨ (s.move h .step).Over t := by
  obtain ⟨v, own, input, rest, hq, hv, hown, hanswer, -⟩ := turn_yield hturn
  have hhead := List.head?_eq_some_iff.2 ⟨rest, hq⟩
  obtain ⟨u, process, hu, hup, hp⟩ := hruns
  obtain rfl := Option.some.inj (hv.symm.trans hu)
  obtain rfl := Option.some.inj (hown.symm.trans hup)
  have hwatcher := Process.watcher_turn hp hanswer
  cases hwatcher with
  | nears hnone => simp [hnone] at heffect
  | listens hnext =>
    obtain rfl : pattern = .channel ch := by
      cases pattern with
      | channel ch' => cases heffect; rfl
      | _ => cases heffect
    refine (run.goes_on ⟨v, own, hv, hown, rfl⟩ hhead hanswer).imp_left ?_
    rintro ⟨u, next, hu, hup, rfl⟩
    exact ⟨u, _, hu, hup, hnext⟩

/-- A watcher that is turned away is told so, before anybody else gets a turn. -/
theorem TurnedAway.spins (haway : TurnedAway h (s, m) ch t) (run : Run h log s)
    (hruns : s.Runs t (Process.watchers pattern)) : Spinning (s.move h m) t ch := by
  obtain ⟨hdealing, c, hc, hclosed, hdry⟩ := haway
  obtain ⟨rfl, id, effect, hturn, heffect⟩ := turn_of_dealing? hdealing
  obtain ⟨-, -, -, -, r, -, -, -, -, -, -, hchannels, -, hmove⟩ := run.event_turn hturn heffect
  have hc' : r.channels.find? ch = some c := by rwa [hchannels]
  rcases event_cases heffect r h with ⟨he, heq⟩ | ⟨v, he, -⟩ | ⟨he, -⟩
  · cases he
    have htake : r.channelTake t ch = .ok ((r.setChannel ch c).answer t .closed) := by
      simp [channelTake, hc', Channel.take_of_dry hclosed hdry]
    have hhead : (s.move h .step).queue.head? = some (t, .value .closed) := by
      rw [hmove _ (heq.trans htake), queue_takeFault]
      rfl
    refine ⟨⟨List.mem_of_head? hhead, ?_, run.shut_move ⟨c, hc, hclosed, hdry⟩ .step⟩, hhead⟩
    refine (run.listens_of_away hturn heffect hruns).resolve_right fun hover => ?_
    exact (run.move .step).idle_of_over hover (mem_active.2 ⟨_, hhead⟩)
  · cases he
  · cases he

/-- On its turn a watcher that has been barred is turned away. -/
theorem Barred.turned_away (hd : Barred s t ch) (run : Run h log s) (hactive : t ∈ s.active) :
    TurnedAway h (s, .step) ch t := by
  obtain ⟨input, hhead⟩ := mem_active.1 hactive
  obtain ⟨rest, hq⟩ := List.head?_eq_some_iff.1 hhead
  obtain rfl := run.input_of_head hq hd.queued
  obtain ⟨u, process, hu, hup, hp⟩ := hd.runs
  have hturn := turn_of_head (h := h) hhead ⟨u, process, hu, hup, rfl⟩
  rw [Process.listener_step hp] at hturn
  exact ⟨dealing?_of_turn hturn rfl, hd.shut⟩

theorem Spinning.step (hs : Spinning s t ch) (run : Run h log s) :
    TurnedAway h (s, .step) ch t ∧ Spinning (s.move h .step) t ch := by
  have haway := hs.turned_away (h := h) run (mem_active.2 ⟨_, hs.head⟩)
  exact ⟨haway, haway.spins run (hs.runs.mono (Process.listeners_subset _))⟩

/-- A watcher that has been barred stays so until it is signalled. -/
theorem Barred.move (hd : Barred s t ch) (run : Run h log s) (m : Move P)
    (hcalm : ¬Cancels h (s, m) t) : Barred (s.move h m) t ch := by
  by_cases hturn : m = .step ∧ s.queue.head? = some (t, .value .closed)
  · obtain ⟨rfl, hhead⟩ := hturn
    exact (Spinning.step ⟨hd, hhead⟩ run).2.toBarred
  · obtain ⟨hruns, -, hkept⟩ := run.queued_move hd.queued hd.runs hturn
    exact ⟨hkept.resolve_right fun hlost => hcalm hlost.2, hruns, run.shut_move hd.shut m⟩

theorem Barred.moves (hd : Barred s t ch) (run : Run h log s)
    (hcalm : ∀ e ∈ s.history h ms, ¬Cancels h e t) : Barred (s.moves h ms) t ch ∧
      ∀ e ∈ s.history h ms, e.2 = .step → t ∈ e.1.active → TurnedAway h e ch t := by
  induction ms generalizing log s with
  | nil => exact ⟨hd, by simp [history]⟩
  | cons m ms ih =>
    obtain ⟨hfirst, hrest⟩ := List.forall_mem_cons.1 hcalm
    obtain ⟨hlast, hturns⟩ := ih (hd.move run m hfirst) (run.move m) hrest
    refine ⟨hlast, List.forall_mem_cons.2 ⟨?_, hturns⟩⟩
    rintro rfl hactive
    exact hd.turned_away run hactive

/-- With a watcher that has been barred no run ends well, unless it signals the watcher. -/
theorem Barred.not_done (hd : Barred s t ch) (run : Run h log s)
    (hdone : (s.run h).1 = .ok ()) : ∃ e ∈ s.history h (s.runTrail h), Cancels h e t := by
  by_contra hcalm
  have hlast := (hd.moves run fun e he hcancels => hcalm ⟨e, he, hcancels⟩).1.queued
  have hreply : s.run h = (.ok (), (s.run h).2) := by rw [← hdone]
  rw [← run_moves, (idle_of_run hreply).1] at hlast
  cases hlast

/-- A listener whose channel is closed while it waits there is barred. -/
theorem Run.barred_of_close (run : Run h log s) (hdealing : s.dealing? h m = some (ch, .close))
    (hw : s.wait? t = some (.channelTake ch))
    (hruns : s.Runs t (Process.listeners (.channel ch))) : Barred (s.move h m) t ch := by
  obtain ⟨c, hc, hone, -⟩ := ((run.coherent.registered t).channelTake ch).1 hw
  have ht : t ∈ c.takers := List.count_pos_iff.1 (by omega)
  have hregular := run.regular hc
  have htakers : c.takers ≠ [] := List.ne_nil_of_mem ht
  obtain ⟨hbuffer, hputters⟩ := hregular.apart htakers
  have hopen := hregular.open_of_takers htakers
  refine ⟨run.sent_away hdealing hc ht, ?_, ?_⟩
  · exact run.runs_move hruns m fun _ => run.idle_of_wait hw (by simp)
  · rcases run.channel_move m hc with ⟨event, hd, heq⟩ | ⟨hidle, -⟩
    · cases hdealing.symm.trans hd
      refine ⟨_, heq, by simp [Channel.close, hopen], ?_⟩
      simp [Channel.close, hopen, hbuffer, hputters]
    · exact absurd hdealing (hidle .close)

theorem queue_applyCompletion (s : Scheduler P R W) (c : Completion) :
    s.queue <+: (s.applyCompletion c).2.queue := by
  unfold applyCompletion
  split
  · dsimp only
    split
    · exact List.prefix_append _ _
    · exact List.prefix_refl _
  · split <;> exact List.prefix_refl _

/-- What the host and the completions add to the queue comes last. -/
theorem queue_move (hm : m ≠ .step) (hcancel : ∀ id, m ≠ .cancel id) :
    s.queue <+: (s.move h m).queue := by
  cases m with
  | step => exact absurd rfl hm
  | cancel id => exact absurd rfl (hcancel id)
  | enroll process args => exact List.prefix_append _ _
  | announce n =>
    rw [show s.move h (.announce n) = s.announce h n from rfl, queue_announce]
    exact List.prefix_append _ _
  | deliver c => exact queue_applyCompletion s c
  | receive =>
    simp only [Scheduler.move]
    split
    · exact List.prefix_refl _
    · rename_i c rest hinbox
      exact queue_applyCompletion { s with pending := { s.pending with inbox := rest } } c
  | _ => exact List.prefix_refl _

/-- Nothing but a cancellation stops a watcher that spins. -/
theorem Spinning.move (hs : Spinning s t ch) (run : Run h log s) (hcancel : ∀ id, m ≠ .cancel id) :
    Spinning (s.move h m) t ch := by
  by_cases hm : m = .step
  · subst hm
    exact (hs.step run).2
  · obtain ⟨more, hmore⟩ := queue_move (s := s) (h := h) hm hcancel
    have hhead : (s.move h m).queue.head? = some (t, .value .closed) := by
      rw [← hmore, List.head?_append, hs.head]
      rfl
    have hruns := run.runs_move hs.runs m fun hstep => absurd hstep hm
    exact ⟨⟨List.mem_of_head? hhead, hruns, run.shut_move hs.shut m⟩, hhead⟩

theorem Spinning.moves (hs : Spinning s t ch) (run : Run h log s)
    (hcancel : ∀ id, .cancel id ∉ ms) : Spinning (s.moves h ms) t ch := by
  induction ms generalizing log s with
  | nil => exact hs
  | cons m ms ih =>
    simp only [List.mem_cons, not_or] at hcancel
    exact ih (hs.move run fun id => Ne.symm (hcancel id).1) (run.move m) fun id => (hcancel id).2

/-- The turn of a watcher that spins breaks no contract. -/
theorem Spinning.not_ending (hs : Spinning s t ch) (h : Host P R W) :
    s.ending? h .step = none := by
  obtain ⟨u, process, hu, hup, hp⟩ := hs.runs
  obtain ⟨c, hc, hclosed, hdry⟩ := hs.shut
  have hturn := turn_of_head (h := h) hs.head ⟨u, process, hu, hup, rfl⟩
  rw [Process.listener_step hp] at hturn
  obtain ⟨q, -, -, -, hchannels, hend⟩ := ending?_of_yield hturn
  rw [← hchannels] at hc
  have htake : q.carryOut h t (.take (.channel ch)) =
      .ok ((q.setChannel ch c).answer t .closed) := by
    simp [carryOut, channelTake, hc, Channel.take_of_dry hclosed hdry]
  rw [hend, htake]
  rfl

theorem Spinning.goes_on (hs : Spinning s t ch) (run : Run h log s) :
    s.stepNext? h = some (.ok (), s.move h .step) := by
  have hq : s.queue ≠ [] := List.ne_nil_of_mem hs.queued
  rw [stepNext?_eq run.fault hq, hs.not_ending h]
  rfl

/-- The queued completions that a run applies leave a watcher spinning. -/
theorem Spinning.waits_out (hs : Spinning s t ch) (run : Run h log s) :
    s.applyInbox = (.ok (), s.moves h s.inboxTrail) ∧ Spinning (s.moves h s.inboxTrail) t ch ∨
      ∃ op, s.applyInbox.1 = .error (.protocol none (.unknownOperation op)) := by
  rcases applyInbox_cases run.fault h with ⟨r, happly, -, -⟩ | ⟨op, r, happly⟩
  · have hr : r = s.moves h s.inboxTrail := by rw [← applyInbox_moves, happly]
    have hspins : Spinning (s.moves h s.inboxTrail) t ch :=
      hs.moves run fun id hm => by cases mem_applyTrail hm
    exact .inl ⟨hr ▸ happly, hspins⟩
  · exact .inr ⟨op, by rw [happly]⟩

/-- A watcher that spins takes all the steps of a run, and the budget runs out, unless the run stops
at a queued completion that is in error. -/
theorem Spinning.uses_up (hs : Spinning s t ch) (run : Run h log s) (limit left : Nat) :
    (runWithin h limit left s).1 = .error (.stepBudgetExhausted limit) ∧
        turns (s.history h (runTrailWithin h left s)) = List.replicate left (t, .value .closed) ∨
      ∃ op, (runWithin h limit left s).1 = .error (.protocol none (.unknownOperation op)) := by
  have hsilent : ∀ q : Scheduler P R W, turns (q.history h q.inboxTrail) = [] := fun q =>
    turns_of_receive fun _ hm => mem_applyTrail hm
  induction left generalizing log s with
  | zero =>
    rcases hs.waits_out run with ⟨happly, hspins⟩ | ⟨op, happly⟩
    · have hq := List.ne_nil_of_mem hspins.queued
      exact .inl ⟨by simp [runWithin, happly, hq], hsilent s⟩
    · refine .inr ⟨op, ?_⟩
      rw [runWithin, ← Prod.eta s.applyInbox, happly]
  | succ left ih =>
    rcases hs.waits_out run with ⟨happly, hspins⟩ | ⟨op, happly⟩
    · have hrun := run.moves (h := h) s.inboxTrail
      have hnext := hspins.goes_on hrun
      have hreply : runWithin h limit (left + 1) s =
          runWithin h limit left ((s.moves h s.inboxTrail).move h .step) := by
        simp only [runWithin, happly, hnext]
      have htrail : runTrailWithin h (left + 1) s =
          s.inboxTrail ++
            .step :: runTrailWithin h left ((s.moves h s.inboxTrail).move h .step) := by
        simp only [runTrailWithin, happly, hnext]
      have hserved : served? (s.moves h s.inboxTrail, (.step : Move P)) =
          some (t, .value .closed) := hspins.head
      rw [hreply, htrail, history_append, turns_append, hsilent, List.nil_append, history,
        turns_cons, hserved, List.replicate_succ]
      refine (ih (hspins.step hrun).2 (hrun.move .step)).imp_left (And.imp_right fun hturns => ?_)
      rw [hturns]
      rfl
    · refine .inr ⟨op, ?_⟩
      rw [runWithin, ← Prod.eta s.applyInbox, happly]

/-- A watcher that has been resumed is stepped three times at most before it is suspended again, and
three times more for each value of a channel that it is given meanwhile, unless it takes from a
channel that is closed and has run dry. In that case it is never suspended again: while nothing is
cancelled it is stepped before all others, and every run uses up its budget on it. So it goes with
every watcher whose channel is closed while it waits there. Unless it is cancelled first, it takes
from the closed channel in each of its turns, and no run ends well. -/
theorem Run.watcher_returns (run : Run h log s) (hruns : s.Runs t (Process.watchers pattern)) :
    (∀ ms, (∀ e ∈ s.history h ms, ¬Paused e.1 t ∧ ∀ ch, ¬TurnedAway h e ch t) →
      (inputsOf t (s.history h ms)).length ≤ 3 * (1 + (givenTo h t (s.history h ms)).length)) ∧
    ∀ m ch,
      (TurnedAway h (s, m) ch t → ∀ ms, (∀ id, .cancel id ∉ ms) →
        let r := (s.move h m).moves h ms
        r.wait? t = some .nothing ∧ r.queue.head? = some (t, .value .closed) ∧
          ((r.run h).1 = .error (.stepBudgetExhausted h.config.maxSteps) ∧
              turns (r.history h (r.runTrail h)) =
                List.replicate h.config.maxSteps (t, .value .closed) ∨
            ∃ op, (r.run h).1 = .error (.protocol none (.unknownOperation op)))) ∧
      (s.dealing? h m = some (ch, .close) → s.wait? t = some (.channelTake ch) →
        s.Runs t (Process.listeners (.channel ch)) →
        ∀ ms, (∀ e ∈ (s.move h m).history h ms, ¬Cancels h e t) →
          let r := (s.move h m).moves h ms
          r.wait? t = some .nothing ∧ (t, .value .closed) ∈ r.queue ∧
            (∀ e ∈ (s.move h m).history h ms, e.2 = .step → t ∈ e.1.active →
              TurnedAway h e ch t) ∧
            ((r.run h).1 = .ok () → ∃ e ∈ r.history h (r.runTrail h), Cancels h e t)) := by
  refine ⟨fun ms hms => ?_, fun m ch => ⟨fun haway ms hcancel => ?_, ?_⟩⟩
  · obtain ⟨u, process, hu, hup, hp⟩ := hruns
    have hle := run.turns_le ⟨u, process, hu, hup, rfl⟩ hp hms
    have hspan := process.span_le
    omega
  · have hspins := (haway.spins run hruns).moves (run.move m) hcancel
    have hrun := (run.move m).moves (h := h) ms
    have hw := hrun.wait_of_queued (List.mem_map_of_mem hspins.queued)
    exact ⟨hw, hspins.head, hspins.uses_up hrun _ _⟩
  · intro hdealing hparked hlistens ms hcalm
    have hfirst := run.barred_of_close hdealing hparked hlistens
    obtain ⟨hlast, hturns⟩ := hfirst.moves (run.move m) hcalm
    have hrun := (run.move m).moves (h := h) ms
    have hw := hrun.wait_of_queued (List.mem_map_of_mem hlast.queued)
    exact ⟨hw, hlast.queued, hturns, hlast.not_done hrun⟩

/-! ## A feed -/

/-- The parties to a feed. -/
inductive Feed where
  /-- Opens a channel. -/
  | source
  /-- Closes it. -/
  | closer
  /-- Forks a worker for each notification in it. -/
  | reader
  | worker

def Feed.definition : Feed → Definition Feed Unit Unit
  | .source => .script [.channel .unbounded]
  | .closer => .script [.channelClose ⟨1⟩]
  | .reader => .watchEvery (.channel ⟨1⟩) .worker
  | .worker => .script []

def feed : Host Feed Unit Unit where
  program := ⟨fun _ => "party", Feed.definition, fun state _ w => (.done .unit, state, w)⟩
  config := { maxSteps := 8 }

/-- The channel is open, and the reader is to begin. -/
def opened : Scheduler Feed Unit Unit :=
  moves { world := () } feed [.enroll .source [], .step, .step, .enroll .reader []]

/-- The reader waits at the channel, and the next step closes it. -/
def closing : Scheduler Feed Unit Unit := opened.moves feed [.step, .enroll .closer []]

/-- The channel has been closed. -/
def dried : Scheduler Feed Unit Unit := closing.move feed .step

theorem opened_run : ∃ log, Run feed log opened := by
  have hnew : Run feed [] (({ world := () } : Scheduler Feed Unit Unit)) := .new rfl
  exact ⟨_, hnew.moves _⟩

theorem opened_runs : opened.Runs ⟨2⟩ (Process.watchers (.channel ⟨1⟩)) :=
  ⟨_, _, rfl, rfl, .inl ⟨.worker, [], false, rfl⟩⟩

theorem dried_run : ∃ log, Run feed log dried := by
  obtain ⟨log, run⟩ := opened_run
  exact ⟨_, (run.moves [.step, .enroll .closer []]).move .step⟩

theorem dried_runs : dried.Runs ⟨2⟩ (Process.watchers (.channel ⟨1⟩)) :=
  ⟨_, _, rfl, rfl, .inl ⟨.worker, [], false, rfl⟩⟩

theorem dried_away : TurnedAway feed (dried, .step) ⟨1⟩ ⟨2⟩ := ⟨rfl, _, rfl, rfl, rfl⟩

/-- The reader is stepped once, and waits. When its channel has been closed, it is told so, and it
takes the whole budget of a run. -/
theorem watcher_returns_feed :
    (inputsOf ⟨2⟩ (opened.history feed [.step])).length ≤
        3 * (1 + (givenTo feed ⟨2⟩ (opened.history feed [.step])).length) ∧
      (⟨2⟩, .value .closed) ∈ dried.queue ∧
      turns ((dried.move feed .step).history feed ((dried.move feed .step).runTrail feed)) =
        List.replicate 8 (⟨2⟩, .value .closed) := by
  obtain ⟨log, run⟩ := opened_run
  have hclosing := run.moves (h := feed) [.step, .enroll .closer []]
  have hlistens : closing.Runs ⟨2⟩ (Process.listeners (.channel ⟨1⟩)) :=
    ⟨_, _, rfl, rfl, .inl ⟨.worker, [], rfl⟩⟩
  refine ⟨(run.watcher_returns opened_runs).1 [.step] fun e he => ?_, ?_, ?_⟩
  · obtain rfl : e = (opened, .step) := List.mem_singleton.1 he
    refine ⟨?_, ?_⟩
    · rintro (hw | ⟨ch, hw⟩) <;> cases hw
    · rintro ch ⟨hdealing, c, hc, hclosed, -⟩
      cases hdealing
      cases hc
      cases hclosed
  · have hreader := hclosing.watcher_returns (hlistens.mono (Process.listeners_subset _))
    exact ((hreader.2 .step ⟨1⟩).2 rfl rfl hlistens [] (by simp [history])).2.1
  · have hreader := (hclosing.move .step).watcher_returns dried_runs
    obtain ⟨-, -, ⟨-, hturns⟩ | ⟨op, herror⟩⟩ :=
      (hreader.2 .step ⟨1⟩).1 dried_away [] (by simp)
    · exact hturns
    · have hcut : ((dried.move feed .step).run feed).1 = .error (.stepBudgetExhausted 8) := rfl
      cases hcut.symm.trans herror

/-- Closing a channel may set its watcher spinning: it is given nothing more, and is stepped without
being suspended as often as one likes. -/
theorem not_always_returning :
    ¬∀ (log : List (Scheduler Feed Unit Unit × Move Feed)) (s : Scheduler Feed Unit Unit)
      (t : TaskId) (pattern : Pattern) (ms : List (Move Feed)), Run feed log s →
      s.Runs t (Process.watchers pattern) → (∀ e ∈ s.history feed ms, ¬Paused e.1 t) →
      (inputsOf t (s.history feed ms)).length ≤
        4 * (1 + (givenTo feed t (s.history feed ms)).length) := by
  intro hall
  obtain ⟨log, run⟩ := dried_run
  have hawake : ((dried.history feed (List.replicate 5 .step)).all
      fun e => e.1.wait? ⟨2⟩ == some .nothing) = true := rfl
  have hle := hall log dried ⟨2⟩ (.channel ⟨1⟩) (List.replicate 5 .step) run dried_runs
    fun e he => by
      have hw := List.all_eq_true.1 hawake e he
      rw [beq_iff_eq] at hw
      simp [Paused, hw]
  have hturns : (inputsOf ⟨2⟩ (dried.history feed (List.replicate 5 .step))).length = 5 := rfl
  have hgiven : (givenTo feed ⟨2⟩ (dried.history feed (List.replicate 5 .step))).length = 0 := rfl
  rw [hturns, hgiven] at hle
  exact absurd hle (by decide)

end Scheduler

end CoopTasks

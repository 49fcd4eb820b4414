import CoopTasks.Channel

/-!
# Channels as queues

A channel is a queue of values: those in the buffer, and behind them those of the putters that are
blocked. Values enter at the back and leave at the front, whatever the policy, and what comes out is
what went in, less the values that were discarded or withdrawn. All of it rests on one invariant,
`Regular`: tasks wait to take only when there is nothing to take, and to put only behind a buffer
that is full.
-/

namespace CoopTasks

/-- A fixed buffer has room for one value at least. -/
def Buffering.Roomy : Buffering → Prop
  | .unbounded => True
  | .fixed capacity _ => 1 ≤ capacity

/-- No value is discarded for want of room. -/
def Buffering.Lossless : Buffering → Prop
  | .unbounded | .fixed _ .block => True
  | .fixed _ _ => False

namespace Channel

variable {c : Channel} {task : TaskId} {value : Value}

/-- What is done to a channel. -/
inductive Event where
  | put (putter : TaskId) (value : Value)
  | take (taker : TaskId)
  | withdraw (task : TaskId)
  | close

namespace Event

def value? : Event → Option Value
  | put _ value => some value
  | _ => none

def isWithdrawal : Event → Bool
  | withdraw _ => true
  | _ => false

def isClose : Event → Bool
  | close => true
  | _ => false

end Event

def apply (c : Channel) : Event → Channel
  | .put putter value => (c.put putter value).2
  | .take taker => (c.take taker).2
  | .withdraw task => c.withdraw task
  | .close => c.close

@[simp] theorem apply_put (c : Channel) (putter : TaskId) (value : Value) :
    c.apply (.put putter value) = (c.put putter value).2 := rfl

@[simp] theorem apply_take (c : Channel) (taker : TaskId) :
    c.apply (.take taker) = (c.take taker).2 := rfl

@[simp] theorem apply_withdraw (c : Channel) (task : TaskId) :
    c.apply (.withdraw task) = c.withdraw task := rfl

@[simp] theorem apply_close (c : Channel) : c.apply .close = c.close := rfl

/-- The task that an event gives a value to, and the value. -/
def handed? (c : Channel) : Event → Option (TaskId × Value)
  | .put putter value =>
    match (c.put putter value).1 with
    | .delivered taker => some (taker, value)
    | _ => none
  | .take taker =>
    match (c.take taker).1 with
    | .ready value _ => some (taker, value)
    | _ => none
  | _ => none

def after (c : Channel) (events : List Event) : Channel := events.foldl apply c

@[simp] theorem after_nil (c : Channel) : c.after [] = c := rfl

@[simp] theorem after_cons (c : Channel) (event : Event) (events : List Event) :
    c.after (event :: events) = (c.apply event).after events := rfl

/-- The value that an event hands over. -/
def given (c : Channel) (event : Event) : List Value := ((c.handed? event).map Prod.snd).toList

/-- The values that were handed over, one after the other. -/
def delivered (c : Channel) : List Event → List Value
  | [] => []
  | event :: events => c.given event ++ (c.apply event).delivered events

/-- The values that were put, whether they got in or not. -/
def offered (events : List Event) : List Value := events.filterMap Event.value?

/-- The values that may still be taken, the oldest first. -/
def content (c : Channel) : List Value := c.buffer ++ c.putters.map (·.2)

/-- The overflow that decides on the next put, if the buffer is full. -/
def full? (c : Channel) : Option Overflow :=
  if c.closed || !c.takers.isEmpty || c.policy.hasRoom c.buffer.length then none
  else
    match c.policy with
    | .unbounded => none
    | .fixed _ overflow => some overflow

/-- The first blocked putter goes on, and its value moves into the buffer. -/
def Unblocks (c c' : Channel) (putter : TaskId) : Prop :=
  ∃ next, c.putters = (putter, next) :: c'.putters ∧ c'.buffer = c.buffer.tail ++ [next]

/-- What a take makes of the content, by its answer. -/
def Leaves (c c' : Channel) : TakeAnswer → Prop
  | .ready value unblocked => c.content = value :: c'.content ∧
    ∀ putter, unblocked = some putter ↔ c.Unblocks c' putter
  | .pending | .closed => c.content = [] ∧ c'.content = []

/-- What a put makes of the content, by its answer. -/
def Enters (c c' : Channel) (value : Value) : PutAnswer → Prop
  | .delivered taker => c.takers = taker :: c'.takers ∧ c.content = [] ∧ c'.content = []
  | .buffered => c.full? = none ∧ c'.content = c.content ++ [value] ∨
    c.full? = some .slide ∧ c'.content = c.content.tail ++ [value]
  | .blocked => c.full? = some .block ∧ c'.content = c.content ++ [value]
  | .dropped => (c.closed ∨ c.full? = some .drop) ∧ c'.content = c.content
  | .overflowed capacity => c.full? = some .fail ∧ c.policy.capacity? = some capacity ∧
    c'.content = c.content

/-! ## The invariant -/

structure Regular (c : Channel) : Prop where
  roomy : c.policy.Roomy
  apart : c.takers ≠ [] → c.buffer = [] ∧ c.putters = []
  blocked : c.putters ≠ [] → c.closed = false ∧ c.policy = .fixed c.buffer.length .block
  fits : c.closed = false → ∀ capacity overflow, c.policy = .fixed capacity overflow →
    c.buffer.length ≤ capacity
  shut : c.closed = true → c.takers = [] ∧ c.putters = []

theorem Regular.new {policy : Buffering} (hpolicy : policy.Roomy) : Regular { policy } :=
  ⟨hpolicy, by simp, by simp, by simp, by simp⟩

/-- Putters are blocked behind values. -/
theorem Regular.putters_eq_nil (hc : c.Regular) (hb : c.buffer = []) : c.putters = [] := by
  cases hp : c.putters with
  | nil => rfl
  | cons entry putters =>
    have hroomy := hc.roomy
    rw [(hc.blocked (by simp [hp])).2, hb] at hroomy
    exact absurd hroomy (Nat.not_succ_le_zero 0)

theorem Regular.content_eq_nil (hc : c.Regular) : c.content = [] ↔ c.buffer = [] := by
  constructor
  · intro hnil
    exact (List.append_eq_nil_iff.1 hnil).1
  · intro hb
    simp [content, hb, hc.putters_eq_nil hb]

theorem Regular.content_of_takers (hc : c.Regular) (ht : c.takers ≠ []) : c.content = [] :=
  hc.content_eq_nil.2 (hc.apart ht).1

/-- Nobody waits at a channel that is closed. -/
theorem Regular.open_of_takers (hc : c.Regular) (ht : c.takers ≠ []) : c.closed = false := by
  cases hclosed : c.closed with
  | false => rfl
  | true => exact absurd (hc.shut hclosed).1 ht

/-- Nobody is blocked while there is room. -/
theorem Regular.putters_of_room (hc : c.Regular) (hroom : c.policy.hasRoom c.buffer.length = true) :
    c.putters = [] := by
  cases hp : c.putters with
  | nil => rfl
  | cons entry putters =>
    rw [(hc.blocked (by simp [hp])).2] at hroom
    simp [Buffering.hasRoom] at hroom

/-- Nobody is blocked if the buffer slides. -/
theorem Regular.putters_of_slide (hc : c.Regular) {capacity : Nat}
    (hpolicy : c.policy = .fixed capacity .slide) : c.putters = [] := by
  cases hp : c.putters with
  | nil => rfl
  | cons entry putters =>
    have hblock := (hc.blocked (by simp [hp])).2
    rw [hpolicy] at hblock
    cases hblock

theorem Regular.store (hc : c.Regular) (ht : c.takers = [])
    (hroom : c.policy.hasRoom c.buffer.length = true) (value : Value) :
    (c.store value).Regular := by
  refine ⟨hc.roomy, fun hne => absurd ht hne, fun hne => absurd (hc.putters_of_room hroom) hne,
    fun _ n o hpolicy => ?_, hc.shut⟩
  have hpolicy' : c.policy = .fixed n o := hpolicy
  have hlt : c.buffer.length < n := by simpa [hpolicy', Buffering.hasRoom] using hroom
  simp only [Channel.store, List.length_append, List.length_singleton]
  exact hlt

theorem Regular.overflow (hc : c.Regular) (hopen : c.closed = false) (ht : c.takers = [])
    (hfull : c.policy.hasRoom c.buffer.length = false) (putter : TaskId) (value : Value) :
    (c.overflow putter value).2.Regular := by
  unfold Channel.overflow
  split
  · rename_i hpolicy
    simp [hpolicy, Buffering.hasRoom] at hfull
  · exact hc
  · rename_i capacity hpolicy
    have hfits := hc.fits hopen capacity .slide hpolicy
    have hroomy := hc.roomy
    simp only [hpolicy, Buffering.Roomy] at hroomy
    refine ⟨hc.roomy, fun hne => absurd ht hne,
      fun hne => absurd (hc.putters_of_slide hpolicy) hne, fun _ n o hpolicy' => ?_, hc.shut⟩
    have heq : c.policy = .fixed n o := hpolicy'
    rw [hpolicy] at heq
    cases heq
    simp only [List.length_append, List.length_drop, List.length_singleton]
    omega
  · rename_i capacity hpolicy
    have hfits := hc.fits hopen capacity .block hpolicy
    have hlength : ¬c.buffer.length < capacity := by
      simpa [hpolicy, Buffering.hasRoom] using hfull
    refine ⟨hc.roomy, fun hne => absurd ht hne, fun _ => ⟨hopen, ?_⟩, hc.fits, fun hshut => ?_⟩
    · rw [show c.buffer.length = capacity by omega]
      exact hpolicy
    · cases hopen.symm.trans hshut
  · exact hc

theorem Regular.put (hc : c.Regular) (putter : TaskId) (value : Value) :
    (c.put putter value).2.Regular := by
  unfold Channel.put
  split
  · exact hc
  rename_i hopen
  split
  · rename_i taker rest ht
    obtain ⟨hb, hp⟩ := hc.apart (by simp [ht])
    exact ⟨hc.roomy, fun _ => ⟨hb, hp⟩, fun hne => absurd hp hne, hc.fits,
      fun hshut => absurd hshut hopen⟩
  rename_i ht
  split
  · rename_i hroom
    exact hc.store ht hroom value
  · rename_i hroom
    exact hc.overflow (by simpa using hopen) ht (by simpa using hroom) putter value

theorem Regular.take (hc : c.Regular) (taker : TaskId) : (c.take taker).2.Regular := by
  unfold Channel.take
  split
  · rename_i value rest hb
    have hnone : c.takers ≠ [] → False := fun hne => by simpa [hb] using (hc.apart hne).1
    split
    · -- the freed place is filled at once
      rename_i putter next putters hp
      obtain ⟨hopen, hfull⟩ := hc.blocked (by simp [hp])
      refine ⟨hc.roomy, fun hne => (hnone hne).elim, fun _ => ⟨hopen, ?_⟩, fun _ n o hpolicy => ?_,
        fun hshut => ?_⟩
      · simpa [hb] using hfull
      · have hfits := hc.fits hopen n o hpolicy
        simpa [hb] using hfits
      · have hshut' : c.closed = true := hshut
        rw [hopen] at hshut'
        cases hshut'
    · rename_i hp
      refine ⟨hc.roomy, fun hne => (hnone hne).elim, fun hne => absurd hp hne,
        fun hopen n o hpolicy => ?_, hc.shut⟩
      have hfits := hc.fits hopen n o hpolicy
      simp only [hb, List.length_cons] at hfits
      exact Nat.le_of_succ_le hfits
  · rename_i hb
    split
    · exact hc
    · rename_i hopen
      exact ⟨hc.roomy, fun _ => ⟨hb, hc.putters_eq_nil hb⟩, hc.blocked, hc.fits,
        fun hshut => absurd hshut hopen⟩

theorem filter_ne_nil {α : Type} {p : α → Bool} {as : List α} (h : as.filter p ≠ []) : as ≠ [] := by
  rintro rfl
  exact h rfl

theorem Regular.withdraw (hc : c.Regular) (task : TaskId) : (c.withdraw task).Regular := by
  refine ⟨hc.roomy, fun hne => ?_, fun hne => hc.blocked (filter_ne_nil hne), hc.fits,
    fun hshut => ?_⟩
  · obtain ⟨hb, hp⟩ := hc.apart (filter_ne_nil hne)
    exact ⟨hb, by simp [Channel.withdraw, hp]⟩
  · obtain ⟨ht, hp⟩ := hc.shut hshut
    exact ⟨by simp [Channel.withdraw, ht], by simp [Channel.withdraw, hp]⟩

theorem Regular.close (hc : c.Regular) : c.close.Regular := by
  unfold Channel.close
  split
  · exact hc
  · exact ⟨hc.roomy, by simp, by simp, by simp, by simp⟩

theorem Regular.apply (hc : c.Regular) (event : Event) : (c.apply event).Regular := by
  cases event with
  | put putter value => exact hc.put putter value
  | take taker => exact hc.take taker
  | withdraw task => exact hc.withdraw task
  | close => exact hc.close

theorem Regular.after (hc : c.Regular) (events : List Event) : (c.after events).Regular := by
  induction events generalizing c with
  | nil => exact hc
  | cons event events ih => exact ih (hc.apply event)

/-! ## Puts and takes -/

/-- Without room a put is decided by the overflow. -/
theorem full?_of_overflow {capacity : Nat} {overflow : Overflow} (hopen : ¬c.closed = true)
    (ht : c.takers = []) (hroom : ¬c.policy.hasRoom c.buffer.length = true)
    (hpolicy : c.policy = .fixed capacity overflow) : c.full? = some overflow := by
  rw [hpolicy] at hroom
  simp [full?, hopen, ht, hpolicy, hroom]

theorem full?_of_lossless (hpolicy : c.policy.Lossless) :
    c.full? = none ∨ c.full? = some .block := by
  unfold full?
  split
  · exact Or.inl rfl
  cases hfixed : c.policy with
  | unbounded => exact Or.inl rfl
  | fixed capacity overflow =>
    rw [hfixed] at hpolicy
    cases overflow with
    | block => exact Or.inr rfl
    | _ => cases hpolicy

theorem put_of_closed (hclosed : c.closed = true) (putter : TaskId) (value : Value) :
    c.put putter value = (.dropped, c) := by
  simp [put, hclosed]

/-- A value that is put goes to the taker in front. -/
theorem put_of_takers {taker : TaskId} {rest : List TaskId} (hopen : c.closed = false)
    (ht : c.takers = taker :: rest) (putter : TaskId) (value : Value) :
    c.put putter value = (.delivered taker, { c with takers := rest }) := by
  simp [put, hopen, ht]

theorem take_of_empty (hopen : c.closed = false) (hb : c.buffer = []) (taker : TaskId) :
    c.take taker = (.pending, { c with takers := c.takers ++ [taker] }) := by
  simp [take, hopen, hb]

theorem Regular.leaves (hc : c.Regular) (taker : TaskId) :
    Leaves c (c.take taker).2 (c.take taker).1 := by
  cases hb : c.buffer with
  | nil =>
    have hnil := hc.content_eq_nil.2 hb
    cases hclosed : c.closed with
    | true =>
      have htake : c.take taker = (.closed, c) := by simp [Channel.take, hb, hclosed]
      rw [htake]
      exact ⟨hnil, hnil⟩
    | false =>
      rw [take_of_empty hclosed hb]
      exact ⟨hnil, hnil⟩
  | cons value rest =>
    cases hp : c.putters with
    | nil =>
      have htake : c.take taker = (.ready value none, { c with buffer := rest }) := by
        simp [Channel.take, hb, hp]
      rw [htake]
      refine ⟨by simp [content, hb], fun putter => ⟨by simp, ?_⟩⟩
      rintro ⟨next, hnext, -⟩
      simp [hp] at hnext
    | cons entry putters =>
      obtain ⟨first, next⟩ := entry
      have htake : c.take taker =
          (.ready value (some first), { c with buffer := rest ++ [next], putters }) := by
        simp [Channel.take, hb, hp]
      rw [htake]
      refine ⟨by simp [content, hb, hp], fun putter => ⟨?_, ?_⟩⟩
      · rintro heq
        cases heq
        exact ⟨next, hp, by simp [hb]⟩
      · rintro ⟨next', hnext, -⟩
        rw [hp] at hnext
        cases hnext
        rfl

theorem Regular.enters (hc : c.Regular) (putter : TaskId) (value : Value) :
    Enters c (c.put putter value).2 value (c.put putter value).1 := by
  by_cases hclosed : c.closed
  · rw [put_of_closed hclosed]
    exact ⟨Or.inl hclosed, rfl⟩
  cases ht : c.takers with
  | cons taker rest =>
    have hnil := hc.content_of_takers (by simp [ht])
    rw [put_of_takers (by simpa using hclosed) ht]
    exact ⟨ht, hnil, hnil⟩
  | nil =>
    by_cases hroom : c.policy.hasRoom c.buffer.length
    · have hput : c.put putter value = (.buffered, c.store value) := by
        simp [Channel.put, hclosed, ht, hroom]
      have hp := hc.putters_of_room hroom
      rw [hput]
      exact Or.inl ⟨by simp [full?, hroom], by simp [content, Channel.store, hp]⟩
    · have hput : c.put putter value = c.overflow putter value := by
        simp [Channel.put, hclosed, ht, hroom]
      have hfull : ∀ {capacity overflow}, c.policy = .fixed capacity overflow →
          c.full? = some overflow := full?_of_overflow hclosed ht hroom
      rw [hput]
      unfold Channel.overflow
      split
      · rename_i hpolicy
        simp [hpolicy, Buffering.hasRoom] at hroom
      · rename_i capacity hpolicy
        exact ⟨Or.inr (hfull hpolicy), rfl⟩
      · rename_i capacity hpolicy
        have hp := hc.putters_of_slide hpolicy
        exact Or.inr ⟨hfull hpolicy, by simp [content, hp]⟩
      · rename_i capacity hpolicy
        exact ⟨hfull hpolicy, by simp [content]⟩
      · rename_i capacity hpolicy
        exact ⟨hfull hpolicy, by simp [hpolicy, Buffering.capacity?], rfl⟩

theorem content_close (c : Channel) : c.close.content = c.content := by
  unfold close
  split
  · rfl
  · simp [content]

theorem content_withdraw (c : Channel) (task : TaskId) :
    (c.withdraw task).content = c.buffer ++ (c.putters.filter (·.1 ≠ task)).map (·.2) := rfl

/-! ## Events -/

theorem policy_apply (c : Channel) (event : Event) : (c.apply event).policy = c.policy := by
  cases event with
  | put putter value =>
    rcases c.put_cases putter value with ⟨-, taker, takers, -, heq⟩ | ⟨-, heq⟩ | ⟨buffer, heq⟩ |
      heq | ⟨capacity, heq⟩ <;> simp [heq]
  | take taker =>
    rcases c.take_cases taker with heq | ⟨-, heq⟩ | ⟨value, rest, heq⟩ |
      ⟨value, buffer, putter, next, putters, -, heq⟩ <;> simp [heq]
  | withdraw task => rfl
  | close =>
    simp only [apply_close, close]
    split <;> rfl

theorem closed_apply (c : Channel) (event : Event) :
    (c.apply event).closed = (c.closed || event.isClose) := by
  cases event with
  | put putter value =>
    rcases c.put_cases putter value with ⟨-, taker, takers, -, heq⟩ | ⟨-, heq⟩ | ⟨buffer, heq⟩ |
      heq | ⟨capacity, heq⟩ <;> simp [heq, Event.isClose]
  | take taker =>
    rcases c.take_cases taker with heq | ⟨-, heq⟩ | ⟨value, rest, heq⟩ |
      ⟨value, buffer, putter, next, putters, -, heq⟩ <;> simp [heq, Event.isClose]
  | withdraw task => simp [withdraw, Event.isClose]
  | close =>
    simp only [apply_close, close, Event.isClose, Bool.or_true]
    split
    · assumption
    · rfl

theorem given_put (c : Channel) (putter : TaskId) (value : Value) :
    c.given (.put putter value) =
      match (c.put putter value).1 with
      | .delivered _ => [value]
      | _ => [] := by
  cases hanswer : (c.put putter value).1 <;> simp [given, handed?, hanswer]

theorem given_take (c : Channel) (taker : TaskId) :
    c.given (.take taker) =
      match (c.take taker).1 with
      | .ready value _ => [value]
      | _ => [] := by
  cases hanswer : (c.take taker).1 <;> simp [given, handed?, hanswer]

/-- What a take hands over was the head of the content. -/
theorem Regular.given_append_take (hc : c.Regular) (taker : TaskId) :
    c.given (.take taker) ++ (c.take taker).2.content = c.content := by
  have hlaw := hc.leaves taker
  rw [given_take]
  cases hanswer : (c.take taker).1 with
  | ready value unblocked =>
    rw [hanswer] at hlaw
    exact hlaw.1.symm
  | pending =>
    rw [hanswer] at hlaw
    exact hlaw.2.trans hlaw.1.symm
  | closed =>
    rw [hanswer] at hlaw
    exact hlaw.2.trans hlaw.1.symm

/-- What an event hands over and what is left were there before or are put now, in this order. -/
theorem Regular.sublist_apply (hc : c.Regular) (event : Event) :
    (c.given event ++ (c.apply event).content).Sublist (c.content ++ event.value?.toList) := by
  cases event with
  | put putter value =>
    have hlaw := hc.enters putter value
    simp only [apply_put, given_put, Event.value?, Option.toList_some]
    cases hanswer : (c.put putter value).1 with
    | delivered taker =>
      rw [hanswer] at hlaw
      obtain ⟨-, hnil, hnil'⟩ := hlaw
      simp [hnil, hnil']
    | buffered =>
      rw [hanswer] at hlaw
      rcases hlaw with ⟨-, heq⟩ | ⟨-, heq⟩
      · simp [heq]
      · simp [heq, List.tail_sublist]
    | blocked =>
      rw [hanswer] at hlaw
      simp [hlaw.2]
    | dropped =>
      rw [hanswer] at hlaw
      simp [hlaw.2]
    | overflowed capacity =>
      rw [hanswer] at hlaw
      simp [hlaw.2.2]
  | take taker =>
    have heq := hc.given_append_take taker
    simp [heq, Event.value?]
  | withdraw task =>
    have hkept : (c.withdraw task).content.Sublist c.content :=
      ((List.filter_sublist (l := c.putters)).map _).append_left _
    simpa [given, handed?, Event.value?] using hkept
  | close => simp [given, handed?, Event.value?, content_close]

/-- Nothing gets lost in an open channel whose policy discards nothing. -/
theorem Regular.given_append_apply (hc : c.Regular) (hpolicy : c.policy.Lossless) {event : Event}
    (hevent : event.isWithdrawal = false) :
    c.given event ++ (c.apply event).content =
      c.content ++ if c.closed then [] else event.value?.toList := by
  cases event with
  | put putter value =>
    have hlaw := hc.enters putter value
    have hfull := full?_of_lossless hpolicy
    have hopen : (c.put putter value).1 ≠ .dropped → c.closed = false := by
      intro hne
      cases hclosed : c.closed with
      | false => rfl
      | true => simp [put_of_closed hclosed] at hne
    simp only [apply_put, given_put, Event.value?, Option.toList_some]
    cases hanswer : (c.put putter value).1 with
    | delivered taker =>
      rw [hanswer] at hlaw hopen
      obtain ⟨-, hnil, hnil'⟩ := hlaw
      simp [hnil, hnil', hopen]
    | buffered =>
      rw [hanswer] at hlaw hopen
      rcases hlaw with ⟨-, heq⟩ | ⟨hslide, -⟩
      · simp [heq, hopen]
      · simp [hslide] at hfull
    | blocked =>
      rw [hanswer] at hlaw hopen
      simp [hlaw.2, hopen]
    | dropped =>
      rw [hanswer] at hlaw
      obtain ⟨hclosed | hdrop, heq⟩ := hlaw
      · simp [heq, hclosed]
      · simp [hdrop] at hfull
    | overflowed capacity =>
      rw [hanswer] at hlaw
      simp [hlaw.1] at hfull
  | take taker =>
    have heq := hc.given_append_take taker
    simp [heq, Event.value?]
  | withdraw task => simp [Event.isWithdrawal] at hevent
  | close => simp [given, handed?, Event.value?, content_close]

/-! ## Sequences of events -/

theorem offered_cons (event : Event) (events : List Event) :
    offered (event :: events) = event.value?.toList ++ offered events := by
  cases hv : event.value? <;> simp [offered, hv]

/-- What was handed over and what is left is part of what was there and what was put, in order. -/
theorem Regular.sublist_after (hc : c.Regular) (events : List Event) :
    (c.delivered events ++ (c.after events).content).Sublist (c.content ++ offered events) := by
  induction events generalizing c with
  | nil => exact List.sublist_append_left _ _
  | cons event events ih =>
    have hrest := (ih (hc.apply event)).append_left (c.given event)
    have hfirst := (hc.sublist_apply event).append_right (offered events)
    rw [offered_cons]
    simp only [delivered, List.append_assoc] at hrest hfirst ⊢
    exact hrest.trans hfirst

/-- Without withdrawals and overflows, what was handed over and what is left is what was there and
what was put before the close. -/
theorem Regular.delivered_append_after (hc : c.Regular) (hpolicy : c.policy.Lossless)
    {events : List Event} (hevents : ∀ event ∈ events, event.isWithdrawal = false) :
    c.delivered events ++ (c.after events).content =
      c.content ++
        if c.closed then [] else offered (events.takeWhile fun event => !event.isClose) := by
  induction events generalizing c with
  | nil => simp [delivered, offered]
  | cons event events ih =>
    have hfirst := hc.given_append_apply hpolicy (hevents event (by simp))
    have hrest := ih (hc.apply event) (by rwa [policy_apply])
      fun other hother => hevents other (List.mem_cons_of_mem _ hother)
    calc c.delivered (event :: events) ++ (c.after (event :: events)).content
        = c.given event ++ ((c.apply event).delivered events ++
            ((c.apply event).after events).content) := by simp [delivered]
      _ = (c.given event ++ (c.apply event).content) ++ if (c.apply event).closed then [] else
            offered (events.takeWhile fun event => !event.isClose) := by
          rw [hrest, List.append_assoc]
      _ = _ := by
          rw [hfirst, closed_apply, List.append_assoc]
          congr 1
          cases c.closed with
          | true => simp
          | false =>
            cases hclose : event.isClose with
            | true =>
              cases event <;> simp [Event.isClose] at hclose
              simp [Event.isClose, Event.value?, offered]
            | false => simp [hclose, offered_cons]

/-- A channel is a queue. A take is answered with the head of the content if there is one, and lets
the first blocked putter go on as its value moves up; a put appends its value, or slides, or leaves
the content as it is; a close keeps the content, and a withdrawal takes the blocked values of one
task out of it. So what is delivered is, in order, a part of what was put, each value once; and
nothing is missing if the policy discards nothing and nobody withdraws. -/
theorem refines_queue (policy : Buffering) (hpolicy : policy.Roomy) (events : List Event) :
    let c := after { policy } events
    (∀ taker, ((∃ value unblocked, (c.take taker).1 = .ready value unblocked) ↔ c.content ≠ []) ∧
      Leaves c (c.take taker).2 (c.take taker).1) ∧
    (∀ putter value, Enters c (c.put putter value).2 value (c.put putter value).1) ∧
    c.close.content = c.content ∧
    (∀ task, (c.withdraw task).content =
      c.buffer ++ (c.putters.filter (·.1 ≠ task)).map (·.2)) ∧
    (delivered { policy } events ++ c.content).Sublist (offered events) ∧
    (policy.Lossless → (∀ event ∈ events, event.isWithdrawal = false) →
      delivered { policy } events ++ c.content =
        offered (events.takeWhile fun event => !event.isClose)) := by
  intro c
  have hnew : Regular { policy } := .new hpolicy
  have hc : c.Regular := hnew.after events
  refine ⟨fun taker => ⟨⟨?_, fun hne => ?_⟩, hc.leaves taker⟩, hc.enters, content_close c,
    content_withdraw c, ?_, fun hlossless hevents => ?_⟩
  · rintro ⟨value, unblocked, hready⟩
    have hlaw := hc.leaves taker
    rw [hready] at hlaw
    rw [hlaw.1]
    simp
  · have hlaw := hc.leaves taker
    cases hanswer : (c.take taker).1 with
    | ready value unblocked => exact ⟨value, unblocked, rfl⟩
    | pending =>
      rw [hanswer] at hlaw
      exact absurd hlaw.1 hne
    | closed =>
      rw [hanswer] at hlaw
      exact absurd hlaw.1 hne
  · simpa [content] using hnew.sublist_after events
  · simpa [content] using hnew.delivered_append_after hlossless hevents

/-- One value is taken and one more put. The value of the blocked putter is still there after the
close, and what is put then is not. -/
theorem refines_queue_blocked :
    let events : List Event := [.put ⟨1⟩ (.bool false), .put ⟨2⟩ (.bool true), .take ⟨3⟩,
      .put ⟨4⟩ .unit, .close, .put ⟨1⟩ .unit]
    let c := after { policy := .fixed 1 .block } events
    delivered { policy := .fixed 1 .block } events ++ c.content =
      [.bool false, .bool true, .unit] ∧ (c.take ⟨3⟩).2.content = [.unit] := by
  intro events c
  have hlaws := refines_queue (.fixed 1 .block) (Nat.le_refl 1) events
  refine ⟨hlaws.2.2.2.2.2 trivial (by simp [events, Event.isWithdrawal]), ?_⟩
  have hleaves := (hlaws.1 ⟨3⟩).2.1
  exact (List.cons.inj hleaves).2.symm

end Channel

end CoopTasks

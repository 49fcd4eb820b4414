import CoopTasks.Proofs.Bystanders
import CoopTasks.Proofs.Contract
import CoopTasks.Proofs.Deeds
import CoopTasks.Proofs.Idempotence
import CoopTasks.Proofs.Rotation

/-!
# Watchers

A watcher that forks a worker for every notification takes one notification at a time: it waits for
one, forks, and waits for the next. It hears a notification if it waits at the moment of the
publication. For what it hears it forks a worker each, in the order of publication, unless it is
cancelled first. What is published after it was resumed, and before it has come to wait again,
passes it by.
-/

namespace CoopTasks.Scheduler

variable {P R W : Type} {s s' r : Scheduler P R W} {h : Host P R W} {t : TaskId} {m : Move P}
variable {pattern : Pattern} {worker : P} {args : List Value} {n : Notification}
variable {owed : List Notification} {process process' : Process P R W} {input : Input}
variable {e : Scheduler P R W × Move P} {log : List (Scheduler P R W × Move P)}

/-! ## What is published, heard and forked -/

/-- The notification that is published in an entry of a log. -/
def published? (h : Host P R W) (e : Scheduler P R W × Move P) : Option Notification :=
  match e.2, e.1.turn? h with
  | .announce n, _ => some n
  | .step, some (_, .yield (.put n)) => some n
  | _, _ => none

/-- The notification that a task hears in an entry: it waits for one, and this one matches. -/
def heard? (h : Host P R W) (t : TaskId) (pattern : Pattern) (e : Scheduler P R W × Move P) :
    Option Notification :=
  if e.1.wait? t = some .take then (published? h e).filter pattern.accepts else none

/-- The worker that a task forks in an entry, with its arguments. -/
def forked? (h : Host P R W) (t : TaskId) (e : Scheduler P R W × Move P) :
    Option (P × List Value) :=
  match e.2, e.1.turn? h with
  | .step, some (id, .yield (.fork process args)) => if id = t then some (process, args) else none
  | _, _ => none

/-- What a watcher is to fork for a notification. -/
def order (worker : P) (args : List Value) (n : Notification) : P × List Value :=
  (worker, args ++ [.notification n])

theorem published?_eq_some : published? h e = some n ↔ Broadcasts h e n := by
  unfold published? Broadcasts
  split <;> simp_all

theorem forked?_eq_some {worker : P} : forked? h t e = some (worker, args) ↔
    e.2 = .step ∧ e.1.turn? h = some (t, .yield (.fork worker args)) := by
  unfold forked?
  split
  · rename_i id process args' hstep hturn
    by_cases hid : id = t <;> simp_all
  · rename_i hother
    simp only [reduceCtorEq, false_iff, not_and]
    exact fun hstep hturn => hother t worker args hstep hturn

theorem heard?_of_busy (hbusy : e.1.wait? t ≠ some .take) : heard? h t pattern e = none :=
  if_neg hbusy

theorem heard?_of_silence (hsilent : ∀ n, Broadcasts h e n → pattern.accepts n = false) :
    heard? h t pattern e = none := by
  unfold heard?
  split
  · rw [Option.filter_eq_none_iff]
    intro n hn
    simp [hsilent n (published?_eq_some.1 hn)]
  · rfl

/-! ## The stations of a watcher -/

/-- Where a watcher stands that is to fork for these notifications. -/
inductive Watching (s : Scheduler P R W) (t : TaskId) (pattern : Pattern) (worker : P)
    (args : List Value) : List Notification → Prop where
  /-- It waits for the next notification. -/
  | listening : (t, pattern) ∈ s.takers →
      s.Runs t {.watchEvery pattern worker args false} → Watching s t pattern worker args []
  /-- It has heard a notification. -/
  | woken {n : Notification} : (t, .value (.notification n)) ∈ s.queue →
      s.Runs t {.watchEvery pattern worker args false} → Watching s t pattern worker args [n]
  /-- It has forked a worker. -/
  | forking {child : TaskId} : (t, .value (.task child)) ∈ s.queue →
      s.Runs t {.watchEvery pattern worker args true} → Watching s t pattern worker args []

/-- A watcher forks nothing any more: its signal is queued, or it has ended. -/
inductive Spent (s : Scheduler P R W) (t : TaskId) : Prop where
  | signalled (pattern : Pattern) (worker : P) (args : List Value) (forking : Bool) :
      (t, .error (.cancelled t)) ∈ s.queue →
      s.Runs t {.watchEvery pattern worker args forking} → Spent s t
  | ended : t.val < s.nextTask → (∀ u, s.task? t = some u → u.process = none) → Spent s t

theorem Watching.length_le (hw : Watching s t pattern worker args owed) : owed.length ≤ 1 := by
  cases hw <;> simp

theorem Run.busy_of_queued (run : Run h log s) (hm : (t, input) ∈ s.queue) :
    s.wait? t ≠ some .take := by
  rw [run.wait_of_queued (List.mem_map_of_mem hm)]
  simp

theorem Run.wait_of_listener (run : Run h log s) (htaker : (t, pattern) ∈ s.takers) :
    s.wait? t = some .take := by
  by_contra hw
  exact run.coherent.not_mem_elsewhere hw (List.mem_map_of_mem htaker)

theorem turn_of_head (hq : s.queue.head? = some (t, input)) (hruns : s.Runs t {process}) :
    s.turn? h = some (t, (process.step h.program.resume input s.world).1) := by
  obtain ⟨u, process, hu, hp, rfl⟩ := hruns
  obtain ⟨rest, hq⟩ := List.head?_eq_some_iff.1 hq
  simp [turn?, hq, hu, hp]

/-- The turn of a task that yields a valid effect: its process is stored, and the effect carried
out. -/
theorem Run.carries (run : Run h log s) (hq : s.queue.head? = some (t, input))
    (hruns : s.Runs t {process}) {effect : Effect P W} {world : W}
    (hstep : process.step h.program.resume input s.world = (.yield effect, process', world))
    (hvalid : effect.violation? = none) :
    ∃ r : Scheduler P R W, r.Runs t {process'} ∧ Tidy r ∧ r.takers = s.takers ∧
      ∀ r', r.carryOut h t effect = .ok r' → s.move h .step = r'.takeFault.2 := by
  obtain ⟨u, process, hu, hp, rfl⟩ := hruns
  obtain ⟨rest, hq⟩ := List.head?_eq_some_iff.1 hq
  let q := { s with queue := rest, world }.storeProcess t process'
  have htidy : Tidy q := Tidy.storeProcess (s := { s with queue := rest })
    (run.tidy.congr (.of_tasks rfl rfl)) t _ _
  have hnote : (q.note h t effect).tasks = q.tasks ∧ (q.note h t effect).takers = q.takers := by
    unfold note
    split <;> exact ⟨rfl, rfl⟩
  refine ⟨q.note h t effect, ?_, htidy.congr (quiet_note q h t effect).tree, hnote.2,
    fun r' hr' => ?_⟩
  · have hstored := task?_storeProcess (s := { s with queue := rest }) hu process' world
    exact ⟨_, process', (task?_of_tasks hnote.1 t).trans hstored, rfl, rfl⟩
  · have hdispatch : { s with queue := rest }.step h t input = q.dispatch h t effect := by
      have hu' : task? { s with queue := rest } t = some u := hu
      simp [Scheduler.step, hu', hp, hstep, q]
    rw [move_step_cons h hq, hdispatch]
    simp only [dispatch, hvalid]
    rw [show (q.note h t effect).carryOut h t effect = .ok r' from hr']

/-- What is queued for a task stays queued until its turn, unless its signal takes the place. -/
theorem Run.queued_move {S : Set (Process P R W)} (run : Run h log s) (hm : (t, input) ∈ s.queue)
    (hruns : s.Runs t S) (hturn : ¬(m = .step ∧ s.queue.head? = some (t, input))) :
    (s.move h m).Runs t S ∧ (m = .step → t ∉ s.active) ∧ ((t, input) ∈ (s.move h m).queue ∨
      (t, .error (.cancelled t)) ∈ (s.move h m).queue ∧ Cancels h (s, m) t) := by
  have hidle : m = .step → t ∉ s.active := by
    intro hstep hactive
    obtain ⟨input', hhead⟩ := mem_active.1 hactive
    obtain ⟨rest, hq⟩ := List.head?_eq_some_iff.1 hhead
    exact hturn ⟨hstep, by rw [hhead, run.input_of_head hq hm]⟩
  refine ⟨run.runs_move hruns m hidle, hidle, ?_⟩
  rcases run.answerKept m hm with hhead | hkept | ⟨hsignal, hcancels⟩
  · exact absurd hhead hturn
  · exact .inl hkept
  · exact .inr ⟨hsignal, hcancels⟩

/-! ## A watcher that is spent -/

theorem Spent.heard?_eq_none (hs : Spent s t) (run : Run h log s) :
    heard? h t pattern (s, m) = none := by
  cases hs with
  | signalled _ _ _ _ hm _ => exact heard?_of_busy (run.busy_of_queued hm)
  | ended _ hp =>
    refine heard?_of_busy fun hw => ?_
    obtain ⟨u, hu, hw⟩ := Option.map_eq_some_iff.1 hw
    have hchildren := (run.coherent.registered t).children.2 ⟨u, hu, hp u hu⟩
    simp [wait?, hu, hw] at hchildren

theorem Spent.forked?_eq_none (hs : Spent s t) (run : Run h log s) : forked? h t (s, m) = none := by
  rw [Option.eq_none_iff_forall_ne_some]
  rintro ⟨worker, args⟩ hf
  have hturn : s.turn? h = some (t, .yield (.fork worker args)) := (forked?_eq_some.1 hf).2
  cases hs with
  | signalled _ _ _ _ hm hruns =>
    obtain ⟨u, _, input, rest, hq, -⟩ := turn_yield hturn
    obtain rfl := run.input_of_head hq hm
    have hfailed := turn_of_head (h := h) (List.head?_eq_some_iff.2 ⟨rest, hq⟩) hruns
    simp [hfailed, Process.step] at hturn
  | ended _ hp =>
    obtain ⟨u, process, -, -, -, hu, hprocess, -⟩ := turn_yield hturn
    simp [hp u hu] at hprocess

theorem Spent.move (hs : Spent s t) (run : Run h log s) (m : Move P) : Spent (s.move h m) t := by
  have hlater := later_move s h m
  cases hs with
  | signalled pattern worker args forking hm hruns =>
    by_cases hturn : m = .step ∧ s.queue.head? = some (t, .error (.cancelled t))
    · obtain ⟨rfl, hhead⟩ := hturn
      obtain ⟨hid, hended⟩ := ended_of_turn run.tidy (turn_of_head (h := h) hhead hruns) rfl
      exact .ended (Nat.lt_of_lt_of_le hid hlater.next) hended
    · obtain ⟨hruns', -, hkept⟩ := run.queued_move hm hruns hturn
      exact .signalled pattern worker args forking (hkept.elim id And.left) hruns'
  | ended hid hp =>
    refine .ended (Nat.lt_of_lt_of_le hid hlater.next) fun u' hu' => ?_
    obtain ⟨u, hu, honward⟩ := hlater.onward t u' hu' hid
    exact honward.ended (hp u hu)

/-! ## A watcher that listens -/

theorem Later.unchanged (hs : Later s r) (hs' : Later r s') (hid : t.val < s.nextTask)
    (hl : s'.isLive t) (hsame : s'.beingCancelled t = s.beingCancelled t) :
    r.isLive t ∧ r.beingCancelled t = s.beingCancelled t := by
  have hid' := Nat.lt_of_lt_of_le hid hs.next
  have hlr := hs'.isLive hid' hl
  refine ⟨hlr, Bool.eq_iff_iff.2 ⟨fun hc => ?_, hs.beingCancelled hid hlr⟩⟩
  rw [← hsame]
  exact hs'.beingCancelled hid' hl hc

theorem taker_signal (htaker : (t, pattern) ∈ s.takers) (hid : t.val < s.nextTask) (id : TaskId)
    (hl : (s.signal id).isLive t) (hsame : (s.signal id).beingCancelled t = s.beingCancelled t) :
    (t, pattern) ∈ (s.signal id).takers := by
  by_cases heq : id = t
  · subst heq
    have hls : s.isLive id := ((quiet_signal s id).tree.isLive id).symm.trans hl
    rw [beingCancelled_signal hid hls] at hsame
    rwa [signal_of_cancelled hsame.symm]
  · have hmark : ∀ u wait, (t, pattern) ∈ (s.mark id u wait).takers := by
      intro u wait
      rw [takers_mark]
      split
      · exact List.mem_filter.2 ⟨htaker, by simpa using Ne.symm heq⟩
      · exact htaker
    unfold signal
    split
    · exact htaker
    · split
      · exact htaker
      · split
        · exact hmark _ .nothing
        · exact hmark _ .children

theorem taker_cancelSubtree (htaker : (t, pattern) ∈ s.takers) (hid : t.val < s.nextTask)
    (root : TaskId) (hl : (s.cancelSubtree root).isLive t)
    (hsame : (s.cancelSubtree root).beingCancelled t = s.beingCancelled t) :
    (t, pattern) ∈ (s.cancelSubtree root).takers := by
  unfold cancelSubtree at hl hsame ⊢
  generalize (s.subtree root).reverse = ids at *
  induction ids generalizing s with
  | nil => exact htaker
  | cons id rest ih =>
    have hfirst := (quiet_signal s id).later
    obtain ⟨hlr, hsame'⟩ :=
      hfirst.unchanged (Quiet.foldl signal quiet_signal rest (s.signal id)).later hid hl hsame
    exact ih (taker_signal htaker hid id hlr hsame') (Nat.lt_of_lt_of_le hid hfirst.next) hl
      (hsame.trans hsame'.symm)

theorem Deed.taker (hd : Deed h e s s') (htaker : (t, pattern) ∈ s.takers)
    (hid : t.val < s.nextTask) (hsilent : ∀ n, Broadcasts h e n → pattern.accepts n = false)
    (hl : s'.isLive t) (hsame : s'.beingCancelled t = s.beingCancelled t) :
    (t, pattern) ∈ s'.takers := by
  cases hd with
  | mild hs => rwa [hs.takers]
  | cancel root _ => exact taker_cancelSubtree htaker hid root hl hsame
  | call =>
    unfold Scheduler.call
    dsimp only
    split <;> exact htaker
  | take => exact List.mem_append_left _ htaker
  | publish hb hs =>
    rw [hs.takers, List.mem_filter]
    exact ⟨htaker, by simp [hsilent _ hb]⟩
  | complete c =>
    unfold applyCompletion
    split
    · dsimp only
      split <;> exact htaker
    · split <;> exact htaker

/-- Who waits for a notification goes on waiting until a matching one is published or its signal
comes. -/
theorem Deeds.taker (hs : Deeds h e s s') (htaker : (t, pattern) ∈ s.takers)
    (hid : t.val < s.nextTask) (hsilent : ∀ n, Broadcasts h e n → pattern.accepts n = false)
    (hl : s'.isLive t) (hsame : s'.beingCancelled t = s.beingCancelled t) :
    (t, pattern) ∈ s'.takers := by
  induction hs using Relation.ReflTransGen.head_induction_on with
  | refl => exact htaker
  | head hd hrest ih =>
    obtain ⟨hlr, hsame'⟩ := hd.later.unchanged (Deeds.later hrest) hid hl hsame
    exact ih (hd.taker htaker hid hsilent hlr hsame') (Nat.lt_of_lt_of_le hid hd.later.next)
      (hsame.trans hsame'.symm)

theorem queue_announce (s : Scheduler P R W) (h : Host P R W) (n : Notification) :
    (s.announce h n).queue = s.queue ++ s.notices n := by
  have hfold : ∀ (ids : List TaskId) (r : Scheduler P R W),
      (ids.foldl (fun r id => r.wakeLast id (.value (.notification n))) r).queue =
        r.queue ++ ids.map fun id => (id, .value (.notification n)) := by
    intro ids
    induction ids with
    | nil => simp
    | cons id rest ih =>
      intro r
      rw [List.foldl_cons, ih]
      simp [wakeLast, enqueueLast, makeReady, updateTask]
  have hpublish : (s.publish h n).2.queue = s.queue := rfl
  rw [announce, hfold, hpublish, (publish_eq s h n).1, notices]

/-- Who waits for a notification is woken with it. -/
theorem notified (htaker : (t, pattern) ∈ s.takers) (hb : Broadcasts h (s, m) n)
    (haccepts : pattern.accepts n) : (t, .value (.notification n)) ∈ (s.move h m).queue := by
  have hnotice : (t, .value (.notification n)) ∈ s.notices n :=
    List.mem_map_of_mem (List.mem_map_of_mem (List.mem_filter.2 ⟨htaker, haccepts⟩))
  rcases hb with hm | ⟨hm, p, hturn⟩
  · obtain rfl : m = .announce n := hm
    rw [show s.move h (.announce n) = s.announce h n from rfl, queue_announce]
    exact List.mem_append_right _ hnotice
  · obtain rfl : m = .step := hm
    rw [(publishes_of_turn hturn).queue]
    exact List.mem_append_left _ hnotice

/-! ## The turns of a watcher -/

theorem Runs.changed {S : Set (Process P R W)} (hr : s.Runs t S) (hs : Changed ∅ s s') :
    s'.Runs t S := by
  obtain ⟨u, process, hu, hp, hS⟩ := hr
  obtain ⟨u', hu', hsteady⟩ := hs.stays t u hu
  exact ⟨u', process, hu', (hsteady.process.resolve_left (Set.notMem_empty t)).trans hp, hS⟩

theorem carryOut_take (s : Scheduler P R W) (h : Host P R W) (id : TaskId)
    (hpattern : ∀ c, pattern ≠ .channel c) : s.carryOut h id (.take pattern) =
      .ok ({ s with takers := s.takers ++ [(id, pattern)] }.suspend id .take) := by
  cases pattern with
  | channel c => exact absurd rfl (hpattern c)
  | _ => rfl

/-- A watcher forks for the notification that it has heard. -/
theorem Run.forks_worker (run : Run h log s)
    (hq : s.queue.head? = some (t, .value (.notification n)))
    (hruns : s.Runs t {.watchEvery pattern worker args false}) :
    forked? h t (s, .step) = some (order worker args n) ∧
      Watching (s.move h .step) t pattern worker args [] := by
  obtain ⟨r, hr, htidy, -, hmove⟩ := run.carries hq hruns rfl rfl
  refine ⟨forked?_eq_some.2 ⟨rfl, turn_of_head hq hruns⟩, ?_⟩
  have hchanges : Changes ∅ (fun _ => True) r (r.fork h t worker (args ++ [.notification n])) :=
    changes_fork (fun _ _ => trivial) r htidy.forest.fresh_task h t worker _
  have hanswer : (t, .value (.task ⟨r.nextTask⟩)) ∈
      (r.fork h t worker (args ++ [.notification n])).takeFault.2.queue := by
    rw [queue_takeFault, queue_fork]
    exact List.mem_cons_self
  rw [hmove _ rfl]
  exact .forking hanswer ((hr.changed hchanges.changed).changed
    (changes_takeFault (Q := fun _ => True) _).changed)

/-- A watcher that has forked waits for the next notification. -/
theorem Run.listens_again (run : Run h log s) (hpattern : ∀ c, pattern ≠ .channel c)
    {child : TaskId} (hq : s.queue.head? = some (t, .value (.task child)))
    (hruns : s.Runs t {.watchEvery pattern worker args true}) :
    forked? h t (s, .step) = none ∧ Watching (s.move h .step) t pattern worker args [] := by
  obtain ⟨r, hr, -, -, hmove⟩ := run.carries hq hruns rfl rfl
  have hturn := turn_of_head (h := h) hq hruns
  refine ⟨Option.eq_none_iff_forall_ne_some.2 fun fork hf => ?_, ?_⟩
  · have hfork : s.turn? h = some (t, .yield (.fork fork.1 fork.2)) := (forked?_eq_some.1 hf).2
    rw [hturn] at hfork
    cases hfork
  · rw [hmove _ (carryOut_take r h t hpattern)]
    have hchanges := changes_take (A := ∅) (Q := fun _ => True) r t pattern
    refine .listening ?_ ((hr.changed hchanges.changed).changed
      (changes_takeFault (Q := fun _ => True) _).changed)
    rw [takers_takeFault]
    exact List.mem_append_right _ List.mem_cons_self

theorem forked?_of_others (hothers : m = .step → t ∉ s.active) : forked? h t (s, m) = none := by
  rw [Option.eq_none_iff_forall_ne_some]
  rintro ⟨worker, args⟩ hf
  obtain ⟨hstep, hturn⟩ := forked?_eq_some.1 hf
  obtain ⟨-, -, input, rest, hq, -⟩ := turn_yield hturn
  exact hothers hstep (by simp [active, show s.queue = _ from hq])

/-! ## Accounts -/

/-- A watcher that was to fork for some notifications, and is now to fork for others, has forked for
all that it has heard in between. -/
def Balanced (h : Host P R W) (t : TaskId) (pattern : Pattern) (worker : P) (args : List Value)
    (owed : List Notification) (log : List (Scheduler P R W × Move P))
    (owed' : List Notification) : Prop :=
  (owed ++ log.filterMap (heard? h t pattern)).map (order worker args) =
    log.filterMap (forked? h t) ++ owed'.map (order worker args)

theorem Balanced.append {owed' owed'' : List Notification}
    {log' : List (Scheduler P R W × Move P)}
    (hb : Balanced h t pattern worker args owed log owed')
    (hb' : Balanced h t pattern worker args owed' log' owed'') :
    Balanced h t pattern worker args owed (log ++ log') owed'' := by
  unfold Balanced at *
  rw [List.filterMap_append, ← List.append_assoc, List.map_append, hb, List.append_assoc,
    ← List.map_append, hb', List.filterMap_append, List.append_assoc]

theorem balanced_of_silence (hheard : heard? h t pattern e = none)
    (hforked : forked? h t e = none) : Balanced h t pattern worker args owed [e] owed := by
  simp [Balanced, hheard, hforked]

/-- In every move a watcher comes to owe what it hears, and pays with what it forks, unless it is
signalled. -/
theorem Watching.move (hw : Watching s t pattern worker args owed) (run : Run h log s)
    (hpattern : ∀ c, pattern ≠ .channel c) (m : Move P) :
    ∃ owed', Balanced h t pattern worker args owed [(s, m)] owed' ∧
      (Watching (s.move h m) t pattern worker args owed' ∨
        Spent (s.move h m) t ∧ owed'.length ≤ 1 ∧ Cancels h (s, m) t) := by
  have hlength := hw.length_le
  -- one case for each station; in the last two it is either the turn of the watcher or not
  cases hw with
  | listening htaker hruns =>
    have hwait := run.wait_of_listener htaker
    have hidle : m = .step → t ∉ s.active := fun _ => run.idle_of_wait hwait (by simp)
    have hruns' := run.runs_move hruns m hidle
    have hforked := forked?_of_others (h := h) hidle
    by_cases hheard : ∃ n, Broadcasts h (s, m) n ∧ pattern.accepts n
    · obtain ⟨n, hb, haccepts⟩ := hheard
      refine ⟨[n], ?_, .inl (.woken (notified htaker hb haccepts) hruns')⟩
      have hheard : heard? h t pattern (s, m) = some n := by
        simp [heard?, hwait, published?_eq_some.2 hb, haccepts]
      simp [Balanced, hheard, hforked]
    · have hsilent : ∀ n, Broadcasts h (s, m) n → pattern.accepts n = false := fun n hb =>
        Bool.eq_false_iff.2 fun haccepts => hheard ⟨n, hb, haccepts⟩
      refine ⟨[], balanced_of_silence (heard?_of_silence hsilent) hforked, ?_⟩
      -- it goes on listening unless it is signalled, for the deeds of the move leave it alone
      by_cases hcancels : Cancels h (s, m) t
      · obtain ⟨u, _, hu, hp, rfl⟩ := id hruns
        have hsignal := run.signal_of_cancelled m hidle hu (by simp [hp]) hcancels.1 hcancels.2
        exact .inr ⟨.signalled _ _ _ _ hsignal hruns', hlength, hcancels⟩
      · have htaker' : (t, pattern) ∈ (s.popped m).takers := by cases m <;> exact htaker
        have hsame := run.same_of_not_cancels hruns.isLive hruns'.isLive hcancels
        rw [← beingCancelled_popped s m] at hsame
        have hid := (forest_popped run.tidy.forest m).fresh t (by cases m <;> exact hruns.isLive)
        exact .inl (.listening ((run.deeds m).taker htaker' hid hsilent hruns'.isLive hsame) hruns')
  | @woken n hm hruns =>
    have hheard : heard? h t pattern (s, m) = none := heard?_of_busy (run.busy_of_queued hm)
    by_cases hturn : m = .step ∧ s.queue.head? = some (t, .value (.notification n))
    · obtain ⟨rfl, hhead⟩ := hturn
      obtain ⟨hforked, hw⟩ := run.forks_worker hhead hruns
      exact ⟨[], by simp [Balanced, hheard, hforked], .inl hw⟩
    · obtain ⟨hruns', hidle, hkept⟩ := run.queued_move hm hruns hturn
      refine ⟨[n], balanced_of_silence hheard (forked?_of_others hidle), ?_⟩
      rcases hkept with hkept | ⟨hsignal, hcancels⟩
      · exact .inl (.woken hkept hruns')
      · exact .inr ⟨.signalled _ _ _ _ hsignal hruns', hlength, hcancels⟩
  | @forking child hm hruns =>
    have hheard : heard? h t pattern (s, m) = none := heard?_of_busy (run.busy_of_queued hm)
    by_cases hturn : m = .step ∧ s.queue.head? = some (t, .value (.task child))
    · obtain ⟨rfl, hhead⟩ := hturn
      obtain ⟨hforked, hw⟩ := run.listens_again hpattern hhead hruns
      exact ⟨[], balanced_of_silence hheard hforked, .inl hw⟩
    · obtain ⟨hruns', hidle, hkept⟩ := run.queued_move hm hruns hturn
      refine ⟨[], balanced_of_silence hheard (forked?_of_others hidle), ?_⟩
      rcases hkept with hkept | ⟨hsignal, hcancels⟩
      · exact .inl (.forking hkept hruns')
      · exact .inr ⟨.signalled _ _ _ _ hsignal hruns', hlength, hcancels⟩

theorem Run.spent_silent (run : Run h log s) (hs : Spent s t) (ms : List (Move P)) :
    Balanced h t pattern worker args owed (s.history h ms) owed ∧ Spent (s.moves h ms) t := by
  induction ms generalizing log s with
  | nil => exact ⟨by simp [Balanced, history], hs⟩
  | cons m rest ih =>
    obtain ⟨hb, hs'⟩ := ih (run.move m) (hs.move run m)
    have hfirst : Balanced h t pattern worker args owed [(s, m)] owed :=
      balanced_of_silence (hs.heard?_eq_none run) (hs.forked?_eq_none run)
    exact ⟨hfirst.append hb, hs'⟩

/-- The account of a watcher balances over every stretch of a run. -/
theorem Run.watches (run : Run h log s) (hpattern : ∀ c, pattern ≠ .channel c)
    (hw : Watching s t pattern worker args owed) (ms : List (Move P)) :
    ∃ owed', Balanced h t pattern worker args owed (s.history h ms) owed' ∧
      (Watching (s.moves h ms) t pattern worker args owed' ∨
        owed'.length ≤ 1 ∧ ∃ e ∈ s.history h ms, Cancels h e t) := by
  induction ms generalizing log s owed with
  | nil => exact ⟨owed, by simp [Balanced, history], .inl hw⟩
  | cons m rest ih =>
    obtain ⟨owed', hfirst, hw | ⟨hspent, hlength, hcancels⟩⟩ := hw.move run hpattern m
    · obtain ⟨owed'', hrest, hstands⟩ := ih (run.move m) hw
      refine ⟨owed'', hfirst.append hrest, hstands.imp_right ?_⟩
      rintro ⟨hlength, e, he, hcancels⟩
      exact ⟨hlength, e, List.mem_cons_of_mem _ he, hcancels⟩
    · obtain ⟨hrest, -⟩ := (run.move m).spent_silent hspent rest
      exact ⟨owed', hfirst.append hrest, .inr ⟨hlength, (s, m), List.mem_cons_self, hcancels⟩⟩

/-- A watcher hears a matching notification, unless its own resumption is still queued. -/
theorem Watching.hears (hw : Watching e.1 t pattern worker args owed) (run : Run h log e.1)
    (hb : Broadcasts h e n) (haccepts : pattern.accepts n) :
    heard? h t pattern e = some n ∨ t ∈ e.1.queue.map Prod.fst := by
  cases hw with
  | listening htaker _ =>
    refine .inl ?_
    simp [heard?, run.wait_of_listener htaker, published?_eq_some.2 hb, haccepts]
  | woken hm _ | forking hm _ => exact .inr (List.mem_map_of_mem hm)

/-- A watcher that waits for its first notification forks one worker for each that it hears, in the
order of publication, and is at most one behind. Unless it is cancelled it goes on for ever, and
what it is behind with is queued for it. What it does not hear is published while its resumption is
still queued. -/
theorem Run.forks_for_heard (run : Run h log s) (htaker : (t, pattern) ∈ s.takers)
    (hruns : s.Runs t {.watchEvery pattern worker args false})
    (hpattern : ∀ c, pattern ≠ .channel c) (ms : List (Move P)) :
    (∃ owed : List Notification,
      ((s.history h ms).filterMap (heard? h t pattern)).map (order worker args) =
        (s.history h ms).filterMap (forked? h t) ++ owed.map (order worker args) ∧
      owed.length ≤ 1 ∧ ((∀ e ∈ s.history h ms, ¬Cancels h e t) →
        Watching (s.moves h ms) t pattern worker args owed)) ∧
    ∀ before e after, s.history h ms = before ++ e :: after → (∀ e' ∈ before, ¬Cancels h e' t) →
      ∀ n, Broadcasts h e n → pattern.accepts n →
        heard? h t pattern e = some n ∨ t ∈ e.1.queue.map Prod.fst := by
  have hw : Watching s t pattern worker args [] := .listening htaker hruns
  refine ⟨?_, fun before e after hcut hcalm n hb haccepts => ?_⟩
  · obtain ⟨owed, hb, hstands⟩ := run.watches hpattern hw ms
    refine ⟨owed, by simpa [Balanced] using hb, hstands.elim Watching.length_le And.left, ?_⟩
    intro hcalm
    refine hstands.resolve_right ?_
    rintro ⟨-, e, he, hcancels⟩
    exact hcalm e he hcancels
  · obtain ⟨ms₁, ms₂, -, rfl, hstate, -⟩ := history_cut hcut
    obtain ⟨owed, -, hw | ⟨-, e', he', hcancels⟩⟩ := run.watches hpattern hw ms₁
    · have run' := run.moves ms₁
      rw [← hstate] at hw run'
      exact hw.hears run' hb haccepts
    · exact absurd hcancels (hcalm e' he')

/-! ## A notification that passes a watcher by -/

/-- The parties on a wire. -/
inductive Party where
  | relay
  | watcher
  | clerk

def Party.definition : Party → Definition Party Unit Unit
  | .relay => .script [.take (.tag "signal"), .put ⟨"signal", .bool true⟩]
  | .watcher => .watchEvery (.tag "signal") .clerk
  | .clerk => .script []

/-- A relay answers the first notification with another of the same kind. -/
def wire : Host Party Unit Unit where
  program := ⟨fun _ => "party", Party.definition, fun state _ w => (.done .unit, state, w)⟩

/-- The relay waits for a notification, and the watcher after it. -/
def tapped : Scheduler Party Unit Unit :=
  moves { world := () } wire [.enroll .relay [], .step, .enroll .watcher [], .step]

/-- The host publishes the first notification, and all that is queued is stepped. -/
def firstSignal : List (Move Party) :=
  [.announce ⟨"signal", .bool false⟩, .step, .step, .step, .step, .step]

theorem tapped_run : ∃ log, Run wire log tapped := by
  have hnew : Run wire [] (({ world := () } : Scheduler Party Unit Unit)) := .new rfl
  exact ⟨_, hnew.moves _⟩

theorem tapped_listens : (⟨2⟩, .tag "signal") ∈ tapped.takers :=
  List.mem_cons_of_mem _ List.mem_cons_self

theorem tapped_runs : tapped.Runs ⟨2⟩ {.watchEvery (.tag "signal") .clerk [] false} :=
  ⟨_, _, rfl, rfl, rfl⟩

theorem calm_firstSignal : ∀ e ∈ tapped.history wire firstSignal, ¬Cancels wire e ⟨2⟩ := by
  have hcalm : ((tapped.history wire firstSignal).all
      fun e => !decide (Cancels wire e ⟨2⟩)) = true := rfl
  simpa using hcalm

/-- The watcher forks one worker, for the notification that it hears. -/
theorem forks_for_heard_tapped :
    (tapped.history wire firstSignal).filterMap (forked? wire ⟨2⟩) =
      ((tapped.history wire firstSignal).filterMap (heard? wire ⟨2⟩ (.tag "signal"))).map
        (order .clerk []) := by
  obtain ⟨log, run⟩ := tapped_run
  obtain ⟨⟨owed, hbalanced, -, hstands⟩, -⟩ :=
    run.forks_for_heard tapped_listens tapped_runs (by simp) firstSignal
  have hqueue : (tapped.moves wire firstSignal).queue = [] := rfl
  cases hstands calm_firstSignal with
  | listening => simpa using hbalanced.symm
  | woken hm => simp [hqueue] at hm
  | forking hm => simp [hqueue] at hm

/-- A watcher may miss a notification: two that match are published while it is live and is not
cancelled, and when nothing is left to do it has forked one worker. -/
theorem notification_missed :
    ¬∀ (log : List (Scheduler Party Unit Unit × Move Party)) (s : Scheduler Party Unit Unit)
      (t : TaskId) (pattern : Pattern) (worker : Party) (args : List Value)
      (ms : List (Move Party)), Run wire log s → (t, pattern) ∈ s.takers →
      s.Runs t {.watchEvery pattern worker args false} → (∀ c, pattern ≠ .channel c) →
      (∀ e ∈ s.history wire ms, ¬Cancels wire e t) → (s.moves wire ms).queue = [] →
      (s.history wire ms).filterMap (forked? wire t) =
        ((s.history wire ms).filterMap fun e => (published? wire e).filter pattern.accepts).map
          (order worker args) := by
  intro hall
  obtain ⟨log, run⟩ := tapped_run
  have hforks := congrArg List.length (hall log tapped ⟨2⟩ (.tag "signal") .clerk [] firstSignal run
    tapped_listens tapped_runs (by simp) calm_firstSignal rfl)
  have hone : ((tapped.history wire firstSignal).filterMap (forked? wire ⟨2⟩)).length = 1 := rfl
  have htwo : ((tapped.history wire firstSignal).filterMap fun e =>
    (published? wire e).filter (Pattern.tag "signal").accepts).length = 2 := rfl
  rw [List.length_map, hone, htwo] at hforks
  exact absurd hforks (by decide)

end CoopTasks.Scheduler

import CoopTasks.Proofs.Deeds
import CoopTasks.Proofs.Records
import CoopTasks.Proofs.Timers

/-!
# The custody of operations

An operation that registers nothing unless it lets its caller wait, and then hands out the one
number that it has registered, is orderly. As long as all operations are, what is pending and who
waits for it agree: each pending operation is waited for by its owner, and each task that waits for
an operation owns it. The timers belong to pending operations, one each, as the index of timers is
kept in step. So no call that has come to an end leaves an operation or a timer behind.
-/

namespace CoopTasks

/-- Whether those who wait so wait for an operation. -/
def Wait.isOperation : Wait → Bool
  | .operation _ => true
  | _ => false

namespace Pending

variable {W : Type} {p : Pending} {caller : TaskId} {request : Invocation W} {op : OperationId}

/-- The numbers that are registered while an invocation is carried out, in their order. -/
def obtained (p : Pending) (caller : TaskId) : Invocation W → List OperationId
  | .answer _ _ | .await _ _ => []
  | .defer next =>
    let (id, p) := p.defer caller
    id :: p.obtained caller (next id)
  | .timer after next =>
    let (id, p) := p.schedule caller after
    id :: p.obtained caller (next id)
  | .now next => p.obtained caller (next p.clock)
  | .complete id result next => (p.enqueue ⟨id, result⟩).obtained caller next

/-- An invocation registers nothing and is answered, or its caller is to wait for the one operation
that it registers. -/
def Orderly (p : Pending) (caller : TaskId) (request : Invocation W) : Prop :=
  match (p.carryOut caller request).1 with
  | .answered _ => p.obtained caller request = []
  | .awaiting op => p.obtained caller request = [op]

theorem le_of_mem_obtained (caller : TaskId) (request : Invocation W) (p : Pending)
    (hop : op ∈ p.obtained caller request) : p.nextId ≤ op.val := by
  induction request generalizing p with
  | answer result world => cases hop
  | await id world => cases hop
  | defer next ih =>
    rcases List.mem_cons.1 hop with rfl | hop
    · exact Nat.le_refl _
    · exact Nat.le_of_succ_le (ih _ _ hop)
  | timer after next ih =>
    rcases List.mem_cons.1 hop with rfl | hop
    · exact Nat.le_refl _
    · exact Nat.le_of_succ_le (ih _ _ hop)
  | now next ih => exact ih p.clock p hop
  | complete id result next ih => exact ih (p.enqueue ⟨id, result⟩) hop

/-- Who owns an operation. -/
def owner? (p : Pending) (op : OperationId) : Option TaskId := p.awaited.find? op

theorem owner?_eq_none : p.owner? op = none ↔ op ∉ p.awaited.keys := by
  rw [owner?, Table.mem_keys, Bool.not_eq_true, Option.isSome_eq_false_iff,
    Option.isNone_iff_eq_none]

theorem owner?_defer (p : Pending) (owner : TaskId) (op : OperationId) :
    (p.defer owner).2.owner? op = if op = ⟨p.nextId⟩ then some owner else p.owner? op :=
  Table.find?_insert _ _ _ _

theorem owner?_schedule (p : Pending) (owner : TaskId) (after : Nat) (op : OperationId) :
    (p.schedule owner after).2.owner? op = if op = ⟨p.nextId⟩ then some owner else p.owner? op :=
  owner?_defer p owner op

theorem owner?_discard (p : Pending) (op op' : OperationId) :
    (p.discard op').owner? op = if op = op' then none else p.owner? op :=
  Table.find?_erase _ _ _

/-- The caller owns what is registered for it, and everything else stays with its owner. -/
theorem owner?_carryOut (caller : TaskId) (request : Invocation W) (p : Pending)
    (op : OperationId) : (p.carryOut caller request).2.1.owner? op =
      if op ∈ p.obtained caller request then some caller else p.owner? op := by
  induction request generalizing p with
  | answer result world => simp [carryOut, obtained]
  | await id world => simp [carryOut, obtained]
  | defer next ih =>
    change ((p.defer caller).2.carryOut caller (next ⟨p.nextId⟩)).2.1.owner? op =
      if op ∈ ⟨p.nextId⟩ :: (p.defer caller).2.obtained caller (next ⟨p.nextId⟩) then _ else _
    rw [ih, owner?_defer]
    split <;> split <;> simp_all
  | timer after next ih =>
    change ((p.schedule caller after).2.carryOut caller (next ⟨p.nextId⟩)).2.1.owner? op =
      if op ∈ ⟨p.nextId⟩ :: (p.schedule caller after).2.obtained caller (next ⟨p.nextId⟩)
        then _ else _
    rw [ih, owner?_schedule]
    split <;> split <;> simp_all
  | now next ih => exact ih p.clock p
  | complete id result next ih => exact ih _

theorem Sound.lt_of_owner? (hp : p.Sound) {owner : TaskId} (ho : p.owner? op = some owner) :
    op.val < p.nextId :=
  hp.numbered.fresh op ((Table.mem_keys _ _).2 (by rw [show p.awaited.find? op = _ from ho]; rfl))

end Pending

namespace Scheduler

variable {P R W : Type} {s s' : Scheduler P R W} {h : Host P R W} {id : TaskId} {op : OperationId}
variable {e : Scheduler P R W × Move P} {log : List (Scheduler P R W × Move P)}

/-! ## Custody -/

/-- Each operation is waited for by its owner, and by nobody else. -/
def Custody (s : Scheduler P R W) : Prop :=
  ∀ op id, s.wait? id = some (.operation op) ↔ s.pending.owner? op = some id

theorem Custody.of_same (hs : Custody s)
    (hwaits : ∀ j op, s'.wait? j = some (.operation op) ↔ s.wait? j = some (.operation op))
    (howner : ∀ op, s'.pending.owner? op = s.pending.owner? op) : Custody s' := fun op id => by
  rw [hwaits, howner, hs op id]

theorem owner?_of_awaited (hawaited : s'.pending.awaited = s.pending.awaited) (op : OperationId) :
    s'.pending.owner? op = s.pending.owner? op := by
  rw [Pending.owner?, Pending.owner?, hawaited]

/-- An operation is discarded, and with it its owner's wait ends. -/
theorem Custody.discard (hs : Custody s) (howner : s.pending.owner? op = some id)
    (hself : ∀ op, s'.wait? id ≠ some (.operation op))
    (hothers : ∀ j, j ≠ id → s'.wait? j = s.wait? j)
    (hpending : s'.pending = s.pending.discard op) : Custody s' := by
  intro op' j
  rw [hpending, Pending.owner?_discard]
  by_cases hj : j = id
  · subst hj
    refine ⟨fun hw => absurd hw (hself op'), fun ho => ?_⟩
    split at ho
    · cases ho
    · rename_i hne
      have hsame := (hs op j).2 howner
      rw [(hs op' j).2 ho] at hsame
      cases hsame
      exact absurd rfl hne
  · rw [hothers j hj, hs op' j]
    by_cases hop : op' = op
    · simp [hop, howner, Ne.symm hj]
    · simp [hop]

theorem Custody.mark (hs : Custody s) {t : Task P R W} (ht : s.task? id = some t) {wait : Wait}
    (hinner : wait.isExternal = false) : Custody (s.mark id t wait) := by
  have hself : (s.mark id t wait).wait? id = some wait := by
    have hmark : (s.mark id t wait).wait? id = ((s.updateTask id fun t =>
        { t with cancelling := true, wait }).withdraw id t.wait).wait? id := rfl
    rw [hmark, wait?_withdraw]
    simp [wait?, ht]
  have hinward : ∀ op, (s.mark id t wait).wait? id ≠ some (.operation op) :=
    fun op => Inward.of_wait hself hinner _ rfl
  have hothers : ∀ j, j ≠ id → (s.mark id t wait).wait? j = s.wait? j :=
    fun j hj => wait?_mark_of_ne s hj t wait
  have hwait : s.wait? id = some t.wait := by simp [wait?, ht]
  by_cases hop : ∃ op, t.wait = .operation op
  · obtain ⟨op, hop⟩ := hop
    refine hs.discard ((hs op id).1 (hop ▸ hwait)) hinward hothers ?_
    simp [Scheduler.mark, unqueue, withdraw, hop, updateTask]
  · refine hs.of_same (fun j op => ?_) (owner?_of_awaited ?_)
    · by_cases hj : j = id
      · subst hj
        refine iff_of_false (hinward op) fun hw => hop ⟨op, ?_⟩
        exact Option.some.inj (hwait.symm.trans hw)
      · rw [hothers j hj]
    · have hmark : (s.mark id t wait).pending = ((s.updateTask id fun t =>
          { t with cancelling := true, wait }).withdraw id t.wait).pending := rfl
      rw [hmark]
      cases hw : t.wait with
      | operation op => exact absurd ⟨op, hw⟩ hop
      | _ => rfl

theorem Custody.signal (hs : Custody s) (id : TaskId) : Custody (s.signal id) := by
  unfold Scheduler.signal
  split
  · exact hs
  · rename_i t ht
    split
    · exact hs
    · split
      · have hinner : Wait.nothing.isExternal = false := rfl
        exact (hs.mark ht hinner).of_same (fun _ _ => Iff.rfl) fun _ => rfl
      · exact hs.mark ht rfl

theorem Custody.cancelSubtree (hs : Custody s) (root : TaskId) :
    Custody (s.cancelSubtree root) :=
  List.foldlRecOn (motive := Custody) _ _ hs fun _ hr id _ => hr.signal id

theorem Custody.applyCompletion (hs : Custody s) (c : Completion) :
    Custody (s.applyCompletion c).2 := by
  unfold Scheduler.applyCompletion
  split
  · rename_i owner howner
    have hwait : wait? { s with pending := s.pending.discard c.operation } owner =
        some (.operation c.operation) := (hs c.operation owner).2 howner
    rw [if_pos hwait]
    have hresumes := resumes_wakeLast { s with pending := s.pending.discard c.operation }
      owner (.ofResult c.result)
    refine hs.discard howner (fun op => ?_) (fun j hj => ?_) rfl
    · rw [Ne, hresumes.waits _ _ rfl]
      simp
    · simp [wakeLast, enqueueLast, makeReady, wait?, task?, updateTask, hj]
  · split <;> exact hs

/-- A task that does not wait for anything calls an orderly operation. -/
theorem Custody.call (hs : Custody s) (hsound : s.pending.Sound) (hl : s.isLive id)
    (hid : Inward s id) (operation : Operation W) (args : List Value)
    (horderly : s.pending.Orderly id (operation.invoke args id s.world)) :
    Custody (s.call id operation args) := by
  have howner := Pending.owner?_carryOut id (operation.invoke args id s.world) s.pending
  have hfresh : ∀ op ∈ s.pending.obtained id (operation.invoke args id s.world),
      s.pending.nextId ≤ op.val :=
    fun _ => Pending.le_of_mem_obtained id (operation.invoke args id s.world) s.pending
  unfold Pending.Orderly at horderly
  unfold Scheduler.call
  generalize s.pending.carryOut id (operation.invoke args id s.world) = outcome at *
  generalize s.pending.obtained id (operation.invoke args id s.world) = ops at *
  obtain ⟨outcome, pending, world⟩ := outcome
  cases outcome with
  | answered result =>
    obtain rfl : ops = [] := horderly
    have hid' : Inward { s with pending, world } id := hid
    have hsame : ∀ op, Pending.owner? pending op = s.pending.owner? op := by simpa using howner
    exact hs.of_same (fun j op => (hid'.mild_wakeFirst _).waits j _ rfl) hsame
  | awaiting op =>
    obtain rfl : ops = [op] := horderly
    have hnew : ∀ owner, s.pending.owner? op ≠ some owner := fun owner ho =>
      Nat.not_lt.2 (hfresh op (List.mem_singleton.2 rfl)) (hsound.lt_of_owner? ho)
    intro op' j
    have hown : Pending.owner? pending op' =
        if op' = op then some id else s.pending.owner? op' := by
      simpa using howner op'
    have hwait : (suspend { s with pending, world } id (.operation op)).wait? j =
        if j = id then some (.operation op) else s.wait? j := by
      obtain ⟨t, ht⟩ : ∃ t, s.task? id = some t := Option.isSome_iff_exists.1 hl
      have hself : wait? { s with pending, world } id = some t.wait := congrArg (Option.map _) ht
      rw [wait?_suspend]
      split
      · rename_i hj
        rw [hj, hself, Option.map_some]
      · rfl
    show (suspend { s with pending, world } id (.operation op)).wait? j = _ ↔
      Pending.owner? pending op' = some j
    rw [hwait, hown]
    by_cases hj : j = id
    · by_cases hop : op' = op
      · simp [hj, hop]
      · have hnot := (hs op' id).not.1 (hid _ rfl)
        simp [hj, hop, Ne.symm hop, hnot]
    · by_cases hop : op' = op
      · simp [hj, hop, Ne.symm hj, (hs op j).not.2 (hnew j)]
      · simp [hj, hop, hs op' j]

/-! ## Along a run -/

/-- If a task calls an operation in this entry of a log, the operation is orderly. -/
def OrderlyCall (h : Host P R W) (e : Scheduler P R W × Move P) : Prop :=
  ∀ id operation args, e.2 = .step → e.1.turn? h = some (id, .yield (.call operation args)) →
    e.1.pending.Orderly id (operation.invoke args id (e.1.turnWorld h))

theorem Custody.deed (hs : Custody s) (hd : Deed h e s s') (horderly : OrderlyCall h e)
    (hsound : e.1.pending.Sound) : Custody s' := by
  cases hd with
  | mild hmild =>
    exact hs.of_same (fun j op => hmild.waits j _ rfl) (owner?_of_awaited hmild.awaited)
  | cancel root hf => exact hs.cancelSubtree root
  | call hstep hturn hpending hworld hl hid =>
    refine hs.call (hpending ▸ hsound) hl hid _ _ ?_
    rw [hpending, hworld]
    exact horderly _ _ _ hstep hturn
  | take hstep hturn hid =>
    refine hs.of_same (fun j op => ?_) fun _ => rfl
    rw [wait?_suspend]
    split
    · rename_i hj
      refine iff_of_false (fun hw => ?_) (hj ▸ hid _ rfl)
      obtain ⟨_, -, htake⟩ := Option.map_eq_some_iff.1 hw
      cases htake
    · rfl
  | publish _ hann => exact hs.of_same hann.operations (owner?_of_awaited hann.awaited)
  | complete c => exact hs.applyCompletion c

theorem Custody.deeds (hs : Custody s) (hd : Deeds h e s s') (horderly : OrderlyCall h e)
    (hsound : e.1.pending.Sound) : Custody s' := by
  induction hd with
  | refl => exact hs
  | tail _ hd ih => exact ih.deed hd horderly hsound

/-- The index of the timers is in step with the operations that are awaited. -/
theorem Run.sound_pending (run : Run h log s) : s.pending.Sound := by
  refine run.invariant (I := fun s => s.pending.Sound) (fun _ => Pending.sound_new)
    fun s m hs => ?_
  rcases proceeds_move s h m with hp | ⟨now, -, he⟩
  · exact hp.sound hs
  · exact hs.elapses he

theorem Run.custody (run : Run h log s) (horderly : ∀ e ∈ log, OrderlyCall h e) : Custody s := by
  induction run with
  | new hs =>
    obtain rfl := eq_of_new hs
    exact fun op id => ⟨nofun, nofun⟩
  | @move log s run m ih =>
    have hs := ih fun e he => horderly e (List.mem_append_left _ he)
    have hcall := horderly (s, m) (List.mem_append_right _ (List.mem_singleton.2 rfl))
    have hpopped : Custody (s.popped m) := hs.of_same (fun j op => by rw [wait?_popped])
      fun op => by cases m <;> rfl
    exact hpopped.deeds (run.deeds m) hcall run.sound_pending

/-! ## What is pending -/

/-- The live tasks that wait for an operation. -/
def callers (s : Scheduler P R W) : List TaskId :=
  s.tasks.keys.filter fun id => (s.wait? id).any Wait.isOperation

theorem mem_callers (s : Scheduler P R W) (id : TaskId) :
    id ∈ s.callers ↔ ∃ op, s.wait? id = some (.operation op) := by
  unfold callers
  rw [List.mem_filter, mem_keys_iff, isLive_eq, wait?]
  cases s.task? id with
  | none => simp
  | some t => cases hw : t.wait <;> simp [hw, Wait.isOperation]

/-- The owners of what is pending are those who wait for an operation. -/
theorem Custody.owners (hs : Custody s) (hsound : s.pending.Sound) (htasks : Enlisted s) :
    (s.pending.awaited.entries.map Prod.snd).Perm s.callers := by
  have hnodup := hsound.numbered.nodup
  have howner : ∀ entry ∈ s.pending.awaited.entries,
      s.wait? entry.2 = some (.operation entry.1) := fun entry he =>
    (hs entry.1 entry.2).2 (Table.find?_of_mem hnodup he)
  have hcallers : s.callers.Nodup := htasks.nodup.filter _
  refine (List.perm_ext_iff_of_nodup ?_ hcallers).2 fun id => ?_
  · refine List.pairwise_map.2 ((List.pairwise_map.1 hnodup).imp_of_mem ?_)
    intro entry entry' he he' hne heq
    have hwait := howner entry he
    rw [heq, howner entry' he', Option.some.injEq, Wait.operation.injEq] at hwait
    exact hne hwait.symm
  · rw [mem_callers, List.mem_map]
    constructor
    · rintro ⟨entry, he, rfl⟩
      exact ⟨entry.1, howner entry he⟩
    · rintro ⟨op, hw⟩
      exact ⟨(op, id), Table.mem_of_find? ((hs op id).1 hw), rfl⟩

/-- An operation that its caller does not wait for any more is not pending any more. -/
theorem Run.left_behind (run : Run h log s) (ms : List (Move P))
    (horderly : ∀ e ∈ log ++ s.history h ms, OrderlyCall h e)
    (hwait : s.wait? id = some (.operation op))
    (hover : (s.moves h ms).wait? id ≠ some (.operation op)) :
    op ∉ (s.moves h ms).pending.awaited.keys := by
  intro hop
  have hs := run.custody fun e he => horderly e (List.mem_append_left _ he)
  have hs' := (run.moves ms).custody horderly
  obtain ⟨entry, he, rfl⟩ := List.mem_map.1 hop
  have hold := (hs entry.1 id).1 hwait
  have hbefore := entries_moves s h ms he (run.sound_pending.lt_of_owner? hold)
  refine hover ((hs' entry.1 id).2 ?_)
  have hsame := (Table.find?_of_mem run.sound_pending.numbered.nodup hbefore).symm.trans hold
  exact (Table.find?_of_mem (run.moves ms).sound_pending.numbered.nodup he).trans hsame

/-- If every operation that was called is orderly, what is pending is what the suspended tasks wait
for, one operation each, and every timer belongs to one of these. An operation that its caller does
not wait for any more has left nothing behind, and without live tasks nothing is pending. -/
theorem Run.operations_accounted (run : Run h log s) (horderly : ∀ e ∈ log, OrderlyCall h e) :
    (∀ op id, s.pending.owner? op = some id ↔
      ∃ t, s.task? id = some t ∧ t.status = .waiting ∧ t.wait = .operation op) ∧
    (∀ op op' id, s.pending.owner? op = some id → s.pending.owner? op' = some id → op = op') ∧
    (∀ timer ∈ s.pending.timers, ∃ id, s.pending.owner? timer.2 = some id) ∧
    (s.pending.timers.map Prod.snd).Nodup ∧ s.pending.size = s.callers.length ∧
    (∀ ms, (∀ e ∈ s.history h ms, OrderlyCall h e) → ∀ id op,
      s.wait? id = some (.operation op) → (s.moves h ms).wait? id ≠ some (.operation op) →
      (s.moves h ms).pending.owner? op = none ∧
        ∀ timer ∈ (s.moves h ms).pending.timers, timer.2 ≠ op) ∧
    (s.tasks.keys = [] → s.pending.size = 0 ∧ s.pending.timers = []) := by
  have hs := run.custody horderly
  have hsound := run.sound_pending
  have hsize : s.pending.size = s.callers.length := by
    rw [← (hs.owners hsound run.enlisted).length_eq, List.length_map]
    rfl
  refine ⟨fun op id => ?_, fun op op' id ho ho' => ?_, fun timer ht => ?_,
    hsound.nodup_timers, hsize, fun ms hms id op hwait hover => ?_,
    fun hnone => ?_⟩
  · rw [← hs op id, wait?, Option.map_eq_some_iff]
    refine exists_congr fun t => and_congr_right fun ht => ⟨fun hw => ⟨?_, hw⟩, And.right⟩
    exact (run.coherent.fit id t ht).status (by simp [hw])
  · have hwait := (hs op id).2 ho
    rw [(hs op' id).2 ho', Option.some.injEq, Wait.operation.injEq] at hwait
    exact hwait.symm
  · exact hsound.find_timer ht
  · have hgone := run.left_behind ms (fun e he => (List.mem_append.1 he).elim (horderly e) (hms e))
      hwait hover
    exact ⟨Pending.owner?_eq_none.2 hgone,
      fun timer ht heq => hgone (heq ▸ (run.moves ms).sound_pending.mem_awaited ht)⟩
  · have hcallers : s.pending.size = 0 := by simp [hsize, callers, hnone]
    refine ⟨hcallers, List.eq_nil_iff_forall_not_mem.2 fun timer ht => ?_⟩
    have hentries : s.pending.awaited.entries = [] := List.length_eq_zero_iff.1 hcallers
    simpa [Table.keys, hentries] using hsound.mem_awaited ht

/-- A delay sets one timer for its caller. -/
theorem orderly_delay (p : Pending) (caller : TaskId) (args : List Value) (world : W) :
    p.Orderly caller (Operation.delay.invoke args caller world) := by
  unfold Operation.delay
  dsimp only
  split <;> rfl

theorem OrderlyCall.of_delay {args : List Value}
    (hturn : e.1.turn? h = some (id, .yield (.call .delay args))) : OrderlyCall h e := by
  intro id' operation args' _ hturn'
  rw [hturn] at hturn'
  cases hturn'
  exact orderly_delay _ _ _ _

theorem OrderlyCall.of_not_step (hm : e.2 ≠ .step) : OrderlyCall h e :=
  fun _ _ _ hstep _ => absurd hstep hm

/-- Two naps begin. -/
def bedtime : List (Move Nat) := [.enroll 5 [], .step, .enroll 3 [], .step]

/-- Two delays are pending while two naps last. One of them ends when its timer fires, the other
when it is cancelled, and neither leaves its operation or its timer behind. -/
theorem operations_accounted_naps :
    let s := moves { world := () } naps bedtime
    let rung := s.moves naps [.expire (3, ⟨2⟩), .deliver ⟨⟨2⟩, .ok .unit⟩]
    let cancelled := s.moves naps [.cancel ⟨1⟩]
    s.pending.size = 2 ∧ s.pending.timers = [(5, ⟨1⟩), (3, ⟨2⟩)] ∧
      (rung.pending.owner? ⟨2⟩ = none ∧ ∀ timer ∈ rung.pending.timers, timer.2 ≠ ⟨2⟩) ∧
      cancelled.pending.owner? ⟨1⟩ = none ∧ ∀ timer ∈ cancelled.pending.timers, timer.2 ≠ ⟨1⟩ := by
  intro s rung cancelled
  have hnew : Run naps [] (({ world := () } : Scheduler Nat Unit Unit)) := .new rfl
  have run : Run naps _ s := hnew.moves bedtime
  have horderly : ∀ e ∈ history { world := () } naps bedtime, OrderlyCall naps e := by
    simp only [bedtime, history, List.forall_mem_cons]
    exact ⟨.of_not_step (by simp), .of_delay rfl, .of_not_step (by simp), .of_delay rfl, by simp⟩
  obtain ⟨-, -, -, -, hsize, hover, -⟩ := run.operations_accounted horderly
  have hrings : ∀ e ∈ s.history naps [.expire (3, ⟨2⟩), .deliver ⟨⟨2⟩, .ok .unit⟩],
      OrderlyCall naps e := by
    simp only [history, List.forall_mem_cons]
    exact ⟨.of_not_step (by simp), .of_not_step (by simp), by simp⟩
  have hcancel : ∀ e ∈ s.history naps [.cancel ⟨1⟩], OrderlyCall naps e := by
    simp only [history, List.forall_mem_cons]
    exact ⟨.of_not_step (by simp), by simp⟩
  exact ⟨hsize.trans rfl, rfl, hover _ hrings ⟨2⟩ ⟨2⟩ rfl (by decide),
    hover _ hcancel ⟨1⟩ ⟨1⟩ rfl (by decide)⟩

end Scheduler

end CoopTasks

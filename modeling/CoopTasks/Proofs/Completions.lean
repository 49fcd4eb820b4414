import CoopTasks.Proofs.Budget
import CoopTasks.Proofs.Custody

/-!
# The answers to completions

Operations are numbered from one on in the order of their registration, and no number is used twice.
So the number alone tells an operation that was never registered, of which the host hears, from one
that is over, to which another completion makes no difference. What is pending is taken off the
table for good, and its owner goes on with the result if it still waits for this operation. The
number zero, which no operation has, counts as one that is over.
-/

namespace CoopTasks

namespace Pending

variable {W : Type}

/-- What is registered while an invocation is carried out gets the next numbers. -/
theorem obtained_eq (caller : TaskId) (request : Invocation W) (p : Pending) :
    ∃ count, p.obtained caller request = (List.range' p.nextId count).map OperationId.mk ∧
      (p.carryOut caller request).2.1.nextId = p.nextId + count := by
  induction request generalizing p with
  | answer result world => exact ⟨0, rfl, rfl⟩
  | await id world => exact ⟨0, rfl, rfl⟩
  | defer next ih =>
    obtain ⟨count, hops, hnext⟩ := ih ⟨p.nextId⟩ (p.defer caller).2
    refine ⟨count + 1, congrArg (List.cons _) hops, hnext.trans ?_⟩
    exact Nat.succ_add_eq_add_succ p.nextId count
  | timer after next ih =>
    obtain ⟨count, hops, hnext⟩ := ih ⟨p.nextId⟩ (p.schedule caller after).2
    refine ⟨count + 1, congrArg (List.cons _) hops, hnext.trans ?_⟩
    exact Nat.succ_add_eq_add_succ p.nextId count
  | now next ih => exact ih p.clock p
  | complete id result next ih => exact ih (p.enqueue ⟨id, result⟩)

end Pending

namespace Scheduler

variable {P R W : Type} {s s' r : Scheduler P R W} {h : Host P R W} {m : Move P}
variable {id owner : TaskId} {op : OperationId} {operation : Operation W} {args : List Value}
variable {log : List (Scheduler P R W × Move P)}

/-! ## Registration -/

/-- The operations that are registered in this entry of a log, each with the task that called it. -/
def registrations (h : Host P R W) (e : Scheduler P R W × Move P) : List (OperationId × TaskId) :=
  match e.2, e.1.turn? h with
  | .step, some (id, .yield (.call operation args)) =>
    (e.1.pending.obtained id (operation.invoke args id (e.1.turnWorld h))).map fun op => (op, id)
  | _, _ => []

/-- The operations that were ever registered, in order. -/
def registered (h : Host P R W) (log : List (Scheduler P R W × Move P)) : List OperationId :=
  (log.flatMap (registrations h)).map Prod.fst

/-- What a move registers gets the next numbers and belongs to the task that called the operation;
everything else that is pending was pending before. -/
structure Registers (h : Host P R W) (s : Scheduler P R W) (m : Move P) : Prop where
  numbers : ∃ count, (registrations h (s, m)).map Prod.fst =
      (List.range' s.pending.nextId count).map OperationId.mk ∧
    (s.move h m).pending.nextId = s.pending.nextId + count
  owned : ∀ x ∈ registrations h (s, m), (s.move h m).pending.owner? x.1 = some x.2
  kept : ∀ op owner, (s.move h m).pending.owner? op = some owner →
    (op, owner) ∈ registrations h (s, m) ∨ s.pending.owner? op = some owner

theorem pending_call (s : Scheduler P R W) (id : TaskId) (operation : Operation W)
    (args : List Value) : (s.call id operation args).pending =
      (s.pending.carryOut id (operation.invoke args id s.world)).2.1 := by
  unfold call
  obtain ⟨ending, pending, world⟩ := s.pending.carryOut id (operation.invoke args id s.world)
  cases ending <;> rfl

/-- The operation that a task calls on its turn is carried out. -/
theorem pending_turn (hturn : s.turn? h = some (id, .yield (.call operation args))) :
    (s.move h .step).pending =
      (s.pending.carryOut id (operation.invoke args id (s.turnWorld h))).2.1 := by
  obtain ⟨t, process, input, rest, hq, ht, hp, -, hmove⟩ := turn_yield hturn
  have hworld : s.turnWorld h = (process.step h.program.resume input s.world).2.2 := by
    simp [turnWorld, hq, ht, hp]
  have hnote : ∀ r : Scheduler P R W, (r.note h id (.call operation args)).world = r.world :=
    fun r => by unfold note; split <;> rfl
  have hdispatch : ∀ r : Scheduler P R W, r.dispatch h id (.call operation args) =
    (r.note h id (.call operation args)).call id operation args := fun _ => rfl
  rw [hmove, pending_takeFault, hdispatch, pending_call, pending_note, hnote, hworld]
  rfl

theorem registers_call (hturn : s.turn? h = some (id, .yield (.call operation args))) :
    Registers h s .step := by
  have hpending := pending_turn hturn
  obtain ⟨count, hops, hnext⟩ := s.pending.obtained_eq id (operation.invoke args id (s.turnWorld h))
  have howner := Pending.owner?_carryOut id (operation.invoke args id (s.turnWorld h)) s.pending
  have hnew : registrations h (s, .step) = (s.pending.obtained id
      (operation.invoke args id (s.turnWorld h))).map fun op => (op, id) := by
    simp only [registrations, hturn]
  refine ⟨⟨count, ?_, ?_⟩, ?_, ?_⟩
  · simp [hnew, hops]
  · rw [hpending, hnext]
  · intro x hx
    rw [hnew] at hx
    obtain ⟨op, hop, rfl⟩ := List.mem_map.1 hx
    rw [hpending, howner, if_pos hop]
  · intro op owner ho
    rw [hpending, howner] at ho
    rw [hnew]
    split at ho
    · rename_i hop
      cases ho
      exact .inl (List.mem_map_of_mem hop)
    · exact .inr ho

theorem registrations_eq_nil
    (hcall : ∀ id operation args, m = .step →
      s.turn? h ≠ some (id, .yield (.call operation args))) : registrations h (s, m) = [] := by
  unfold registrations
  split
  · rename_i hstep hturn
    exact absurd hturn (hcall _ _ _ hstep)
  · rfl

theorem owner?_of_sublist (hsound : s.pending.Sound)
    (hs : s'.pending.awaited.entries.Sublist s.pending.awaited.entries)
    (ho : s'.pending.owner? op = some owner) : s.pending.owner? op = some owner := by
  have hentry := hs.subset (Table.mem_of_find? ho)
  exact Table.find?_of_mem hsound.numbered.nodup hentry

theorem Run.registers (run : Run h log s) (m : Move P) : Registers h s m := by
  by_cases hcall : ∃ id operation args, m = .step ∧
      s.turn? h = some (id, .yield (.call operation args))
  · obtain ⟨id, operation, args, rfl, hturn⟩ := hcall
    exact registers_call hturn
  · have hnone : registrations h (s, m) = [] :=
      registrations_eq_nil fun id operation args hstep hturn =>
        hcall ⟨id, operation, args, hstep, hturn⟩
    have hfewer : (s.move h m).pending.nextId = s.pending.nextId ∧
        (s.move h m).pending.awaited.entries.Sublist s.pending.awaited.entries := by
      cases waning_move s h m with
      | wanes hs => exact ⟨hs.pending.next, hs.pending.awaited⟩
      | joined id target _ _ _ hs => rw [hs.pending]; exact ⟨rfl, .refl _⟩
      | invoked id operation args hstep hturn =>
        exact absurd ⟨id, operation, args, hstep, hturn⟩ hcall
      | clock now pending _ _ hmove he => rw [hmove, he.next, he.awaited]; exact ⟨rfl, .refl _⟩
    refine ⟨⟨0, by simp [hnone], hfewer.1⟩, by simp [hnone], fun op owner ho => .inr ?_⟩
    exact owner?_of_sublist run.sound_pending hfewer.2 ho

theorem registered_append (log log' : List (Scheduler P R W × Move P)) :
    registered h (log ++ log') = registered h log ++ registered h log' := by
  simp [registered]

/-- The operations have the numbers from one on, in the order of registration. -/
theorem Run.registered_eq (run : Run h log s) :
    ∃ count, registered h log = (List.range' 1 count).map OperationId.mk ∧
      s.pending.nextId = 1 + count := by
  induction run with
  | new hs =>
    obtain rfl := eq_of_new hs
    exact ⟨0, rfl, rfl⟩
  | @move log s run m ih =>
    obtain ⟨before, hbefore, hstart⟩ := ih
    obtain ⟨count, hnew, hnext⟩ := (run.registers m).numbers
    refine ⟨before + count, ?_, by rw [hnext, hstart, Nat.add_assoc]⟩
    have hlast : registered h [(s, m)] = (registrations h (s, m)).map Prod.fst := by
      simp [registered]
    rw [registered_append, hbefore, hlast, hnew, hstart, ← List.map_append, List.range'_append_1]

theorem Run.mem_registered (run : Run h log s) :
    op ∈ registered h log ↔ op.val ≠ 0 ∧ op.val < s.pending.nextId := by
  obtain ⟨count, hops, hnext⟩ := run.registered_eq
  rw [hops, hnext, List.mem_map]
  constructor
  · rintro ⟨n, hn, rfl⟩
    have hbounds := List.mem_range'_1.1 hn
    exact ⟨by dsimp only; omega, hbounds.2⟩
  · exact fun hop => ⟨op.val, List.mem_range'_1.2 ⟨by omega, hop.2⟩, rfl⟩

/-- What is pending was registered for its owner. -/
theorem Run.registered_of_owner (run : Run h log s) (ho : s.pending.owner? op = some owner) :
    (op, owner) ∈ log.flatMap (registrations h) := by
  induction run with
  | new hs =>
    obtain rfl := eq_of_new hs
    cases ho
  | @move log s run m ih =>
    rw [List.flatMap_append, List.mem_append, List.flatMap_singleton]
    rcases (run.registers m).kept op owner ho with hnew | ho
    · exact .inr hnew
    · exact .inl (ih ho)

/-- An operation is over if it was registered and is pending no more. -/
theorem Run.ceased_iff (run : Run h log s) : (∃ e ∈ log, Ceases h op e) ↔
    op ∈ registered h log ∧ s.pending.owner? op = none := by
  constructor
  · rintro ⟨e, he, hpending, hgone⟩
    obtain ⟨before, after, rfl⟩ := List.append_of_mem he
    obtain ⟨hbefore, ms, -, rfl⟩ := run.cut
    have hid := hbefore.sound_pending.numbered.fresh op hpending
    obtain ⟨owner, howner⟩ := Option.ne_none_iff_exists'.1 fun hnone =>
      Pending.owner?_eq_none.1 hnone hpending
    rw [registered_append]
    refine ⟨List.mem_append_left _ ?_, Pending.owner?_eq_none.2 ?_⟩
    · exact List.mem_map_of_mem (hbefore.registered_of_owner howner)
    · exact not_awaited_moves (Nat.lt_of_lt_of_le hid (nextId_move e.1 h e.2)) hgone h ms
  · rintro ⟨hop, hnone⟩
    induction run with
    | new hs => cases hop
    | @move log s run m ih =>
      by_cases hbefore : op ∈ s.pending.awaited.keys
      · refine ⟨(s, m), List.mem_append_right _ (List.mem_singleton_self _), hbefore, ?_⟩
        exact Pending.owner?_eq_none.1 hnone
      · rw [registered_append, List.mem_append] at hop
        rcases hop with hop | hop
        · obtain ⟨e, he, hceases⟩ := ih hop (Pending.owner?_eq_none.2 hbefore)
          exact ⟨e, List.mem_append_left _ he, hceases⟩
        · simp only [registered, List.flatMap_singleton] at hop
          obtain ⟨x, hx, rfl⟩ := List.mem_map.1 hop
          rw [(run.registers m).owned x hx] at hnone
          cases hnone

/-! ## Answers -/

theorem unknown_of_applyInbox {violation : Violation}
    (happly : s.applyInbox = (.error (.protocol none violation), r)) :
    ∃ op, violation = .unknownOperation op ∧ s.pending.nextId ≤ op.val := by
  obtain ⟨op, heq, hop⟩ := unknown_of_applyAll happly
  cases heq
  exact ⟨op, rfl, hop⟩

/-- A run tells the host of an operation only if it took a completion with a number that was not
given to any. -/
theorem unknown_of_runWithin (hs : s.fault = none) {limit left : Nat} {violation : Violation}
    (hrun : (runWithin h limit left s).1 = .error (.protocol none violation)) :
    ∃ op, violation = .unknownOperation op ∧ s.pending.nextId ≤ op.val := by
  induction left generalizing s with
  | zero =>
    simp only [runWithin] at hrun
    cases happly : s.applyInbox with
    | mk answer r =>
      rw [happly] at hrun
      cases answer with
      | ok u => dsimp only at hrun; split at hrun <;> cases hrun
      | error e =>
        cases hrun
        exact unknown_of_applyInbox happly
  | succ left ih =>
    simp only [runWithin] at hrun
    have hfault := fault_moves hs h s.inboxTrail
    have hnext := nextId_moves s h s.inboxTrail
    rw [← applyInbox_moves] at hfault hnext
    cases happly : s.applyInbox with
    | mk answer r =>
      rw [happly] at hrun hfault hnext
      cases answer with
      | error e =>
        cases hrun
        exact unknown_of_applyInbox happly
      | ok u =>
        dsimp only at hrun
        cases hstep : r.stepNext? h with
        | none => rw [hstep] at hrun; cases hrun
        | some next =>
          have hmove : r.move h .step = next.2 := by simp [move, hstep]
          rw [hstep] at hrun
          obtain ⟨answer, r'⟩ := next
          cases answer with
          | ok u =>
            have hfault' := fault_move hfault h .step
            have hnext' := nextId_move r h .step
            rw [hmove] at hfault' hnext'
            obtain ⟨op, rfl, hop⟩ := ih hfault' hrun
            exact ⟨op, rfl, Nat.le_trans hnext (Nat.le_trans hnext' hop)⟩
          | error e =>
            obtain ⟨id, violation', rfl⟩ := protocol_of_step hfault hstep
            cases hrun

variable {c : Completion}

theorem applyCompletion_of_none (hnone : s.pending.owner? c.operation = none) :
    s.applyCompletion c = if c.operation.val < s.pending.nextId then (.ok (), s)
      else (.error (.protocol none (.unknownOperation c.operation)), s) := by
  have hfind : s.pending.awaited.find? c.operation = none := hnone
  simp [applyCompletion, hfind, Pending.isStale]

theorem deliver_of_owner (howner : s.pending.owner? c.operation = some owner) (h : Host P R W) :
    s.applyCompletion c = (.ok (), s.move h (.deliver c)) ∧
    s.move h (.deliver c) = if s.wait? owner = some (.operation c.operation)
      then { s with pending := s.pending.discard c.operation }.wakeLast owner (.ofResult c.result)
      else { s with pending := s.pending.discard c.operation } := by
  have hfind : s.pending.awaited.find? c.operation = some owner := howner
  have hwait : wait? { s with pending := s.pending.discard c.operation } owner =
    s.wait? owner := rfl
  simp only [move, applyCompletion, hfind, hwait]
  split <;> exact ⟨rfl, rfl⟩

theorem complete_of_stale (hop : c.operation.val < s.pending.nextId)
    (hnone : s.pending.owner? c.operation = none) (h : Host P R W) : s.complete h c = s.run h := by
  refine complete_eq ?_ h
  rw [applyCompletion_of_none hnone, if_pos hop]

theorem complete_of_unknown (hop : s.pending.nextId ≤ c.operation.val)
    (hnone : s.pending.owner? c.operation = none) (h : Host P R W) :
    s.complete h c = (.error (.protocol none (.unknownOperation c.operation)), s) := by
  rw [complete, applyCompletion_of_none hnone, if_neg (Nat.not_lt.2 hop)]

theorem Run.owner?_of_le (run : Run h log s) (hop : s.pending.nextId ≤ op.val) :
    s.pending.owner? op = none := by
  rw [Option.eq_none_iff_forall_ne_some]
  exact fun owner howner => Nat.not_lt.2 hop (run.sound_pending.lt_of_owner? howner)

/-- No operation has the number zero. -/
theorem Run.ne_zero_of_owner (run : Run h log s) (howner : s.pending.owner? op = some owner) :
    op.val ≠ 0 :=
  (run.mem_registered.1 (List.mem_map_of_mem (run.registered_of_owner howner))).1

/-- How a completion of a pending operation is taken. -/
structure Taken (h : Host P R W) (log : List (Scheduler P R W × Move P)) (s : Scheduler P R W)
    (c : Completion) (owner : TaskId) : Prop where
  registered : (c.operation, owner) ∈ log.flatMap (registrations h)
  pending : s.pending.owner? c.operation = some owner
  /-- The operation is not pending any more, and the owner is woken if it waits for it. -/
  taken : s.move h (.deliver c) = if s.wait? owner = some (.operation c.operation)
    then { s with pending := s.pending.discard c.operation }.wakeLast owner (.ofResult c.result)
    else { s with pending := s.pending.discard c.operation }
  reply : s.complete h c = (s.move h (.deliver c)).run h
  once : ∀ ms, ((s.move h (.deliver c)).moves h ms).pending.owner? c.operation = none

theorem Run.taken (run : Run h log s) (howner : s.pending.owner? c.operation = some owner) :
    Taken h log s c owner := by
  obtain ⟨happly, htaken⟩ := deliver_of_owner howner h
  have hgone : c.operation ∉ (s.move h (.deliver c)).pending.awaited.keys := by
    have hpending : (s.move h (.deliver c)).pending = s.pending.discard c.operation := by
      rw [htaken]
      split <;> rfl
    rw [← Pending.owner?_eq_none, hpending, Pending.owner?_discard, if_pos rfl]
  have hid := Nat.lt_of_lt_of_le (run.sound_pending.lt_of_owner? howner)
    (nextId_move s h (.deliver c))
  exact ⟨run.registered_of_owner howner, howner, htaken, complete_eq happly h,
    fun ms => Pending.owner?_eq_none.2 (not_awaited_moves hid hgone h ms)⟩

/-- The host is told of an operation exactly if its number has not been reached yet. -/
theorem Run.unknown_iff (run : Run h log s) (c : Completion) :
    (s.complete h c).1 = .error (.protocol none (.unknownOperation c.operation)) ↔
      s.pending.nextId ≤ c.operation.val := by
  constructor
  · intro hunknown
    by_contra hlow
    have hknown : ∃ r : Scheduler P R W, s.complete h c = r.run h ∧ r.fault = none ∧
        s.pending.nextId ≤ r.pending.nextId := by
      cases howner : s.pending.owner? c.operation with
      | none =>
        exact ⟨s, complete_of_stale (Nat.not_le.1 hlow) howner h, run.fault, Nat.le_refl _⟩
      | some owner =>
        exact ⟨_, (run.taken howner).reply, (run.move _).fault, nextId_move s h _⟩
    obtain ⟨r, hreply, hfault, hnext⟩ := hknown
    rw [hreply] at hunknown
    obtain ⟨op, heq, hop⟩ := unknown_of_runWithin hfault hunknown
    cases heq
    exact hlow (Nat.le_trans hnext hop)
  · intro hop
    rw [complete_of_unknown hop (run.owner?_of_le hop)]

/-- The host is told of an unknown operation exactly if the number was never given to one and is not
zero, and then nothing changes. If the operation is over or the number is zero, a completion makes
no difference to the run that follows it. Every other operation is pending; the completion takes it
off the table for good, and wakes its owner if that waits for this very operation. -/
theorem Run.completions_classified (run : Run h log s) (c : Completion) :
    ((s.complete h c).1 = .error (.protocol none (.unknownOperation c.operation)) ↔
      c.operation ∉ registered h log ∧ c.operation.val ≠ 0) ∧
    ((s.complete h c).1 = .error (.protocol none (.unknownOperation c.operation)) →
      (s.complete h c).2 = s) ∧
    (c.operation.val = 0 ∨ (∃ e ∈ log, Ceases h c.operation e) → s.complete h c = s.run h) ∧
    (c.operation ∈ registered h log → (∀ e ∈ log, ¬Ceases h c.operation e) →
      ∃ owner, Taken h log s c owner) := by
  have hpositive : 0 < s.pending.nextId := by
    obtain ⟨count, -, hnext⟩ := run.registered_eq
    omega
  refine ⟨?_, fun hunknown => ?_, ?_, fun hop hpending => ?_⟩
  · rw [run.unknown_iff c, run.mem_registered]
    omega
  · have hop := (run.unknown_iff c).1 hunknown
    rw [complete_of_unknown hop (run.owner?_of_le hop)]
  · rintro (hzero | hceased)
    · refine complete_of_stale (hzero ▸ hpositive) ?_ h
      rw [Option.eq_none_iff_forall_ne_some]
      exact fun owner howner => run.ne_zero_of_owner howner hzero
    · obtain ⟨hop, hnone⟩ := run.ceased_iff.1 hceased
      exact complete_of_stale (run.mem_registered.1 hop).2 hnone h
  · cases howner : s.pending.owner? c.operation with
    | some owner => exact ⟨owner, run.taken howner⟩
    | none =>
      obtain ⟨e, he, hceases⟩ := run.ceased_iff.2 ⟨hop, howner⟩
      exact absurd hceases (hpending e he)

/-- Two naps are on. A third operation is unknown. The completion of the first one queues its caller
and takes it off the table, so another one makes no difference. -/
theorem completions_classified_naps :
    let s := moves { world := () } naps bedtime
    let c : Completion := ⟨⟨1⟩, .ok .unit⟩
    let r := s.move naps (.deliver c)
    s.complete naps ⟨⟨3⟩, .ok .unit⟩ = (.error (.protocol none (.unknownOperation ⟨3⟩)), s) ∧
      s.complete naps c = r.run naps ∧ r.queue = [(⟨1⟩, .value .unit)] ∧
      r.complete naps c = r.run naps ∧ s.complete naps ⟨⟨0⟩, .ok .unit⟩ = s.run naps := by
  intro s c r
  have hnew : Run naps [] ({ world := () } : Scheduler Nat Unit Unit) := .new rfl
  have run : Run naps _ s := hnew.moves bedtime
  have hpending : s.pending.owner? ⟨1⟩ = some ⟨1⟩ := rfl
  obtain ⟨hunknown, hsame, -, -⟩ := run.completions_classified ⟨⟨3⟩, .ok .unit⟩
  obtain ⟨-, -, -, htaken⟩ := run.completions_classified c
  obtain ⟨-, -, hstale, -⟩ := (run.move (.deliver c)).completions_classified c
  obtain ⟨-, -, hzero, -⟩ := run.completions_classified ⟨⟨0⟩, .ok .unit⟩
  have hthird := hunknown.2 ⟨run.mem_registered.not.2 (by decide), by decide⟩
  obtain ⟨owner, htaken⟩ := htaken (run.mem_registered.2 (by decide)) fun e he hceases => by
    have hgone := (run.ceased_iff.1 ⟨e, he, hceases⟩).2
    cases hgone.symm.trans hpending
  obtain rfl : ⟨1⟩ = owner := Option.some.inj (hpending.symm.trans htaken.pending)
  refine ⟨Prod.ext hthird (hsame hthird), htaken.reply, ?_, hstale (.inr ?_), hzero (.inl rfl)⟩
  · exact (congrArg Scheduler.queue htaken.taken).trans rfl
  · refine ⟨(s, .deliver c), List.mem_append_right _ (List.mem_singleton_self _), by decide, ?_⟩
    exact Pending.owner?_eq_none.1 (htaken.once [])

/-- The number zero was never given to an operation, but a completion of it is no error. -/
theorem zero_not_unknown :
    ¬∀ (log : List (Scheduler Nat Unit Unit × Move Nat)) (s : Scheduler Nat Unit Unit)
      (c : Completion), Run naps log s →
        (s.complete naps c = (.error (.protocol none (.unknownOperation c.operation)), s) ↔
          c.operation ∉ registered naps log) := by
  intro hall
  have hnone : (⟨0⟩ : OperationId) ∉ registered naps [] := by simp [registered]
  have hunknown := (hall [] { world := () } ⟨⟨0⟩, .ok .unit⟩ (.new rfl)).2 hnone
  have hok : (complete { world := () } naps ⟨⟨0⟩, .ok .unit⟩).1 = .ok () := rfl
  rw [hunknown] at hok
  cases hok

end Scheduler

end CoopTasks

import CoopTasks.Proofs.Order
import CoopTasks.Proofs.Resolution
import Mathlib.Data.List.Perm.Subperm

/-!
# Cancelling a tree, innermost first

The tree below a task is listed in post-order, the children of a task in the order of spawning
before the task. Cancelling it goes through the list from the end and puts every signal first in the
queue, so what is queued in the end are the signals in post-order, before all that was queued for
others. A task that asks for it goes on after the last of them.
-/

namespace CoopTasks.Scheduler

variable {P R W : Type} {s s' r : Scheduler P R W} {h : Host P R W}
variable {id root caller target : TaskId} {ids : List TaskId} {entries : List (TaskId × Input)}
variable {log : List (Scheduler P R W × Move P)} {e : Scheduler P R W × Move P}

/-! ## Post-order -/

/-- The trees of a scheduler are listed in post-order. -/
structure PostOrder (s : Scheduler P R W) : Prop where
  unfolds : ∀ id, s.isLive id → s.subtree id = (s.children id).flatMap s.subtree ++ [id]
  sorted : ∀ id, (s.children id).Pairwise fun a b => a.val < b.val
  mem : ∀ root id, id ∈ s.subtree root ↔ s.isLive id ∧ Below s root id
  nodup : ∀ root, (s.subtree root).Nodup

/-- No task is below two others unless one of these is below the other. -/
theorem Below.comparable {a b : TaskId} (ha : Below s a id) (hb : Below s b id) :
    Below s a b ∨ Below s b a := by
  induction ha with
  | self => exact Or.inr hb
  | @child id parent hp ha ih =>
    cases hb with
    | self => exact Or.inl (.child hp ha)
    | child hp' hb' =>
      rw [hp] at hp'
      cases hp'
      exact ih hb'

theorem Below.le (hb : Below s root id) (hf : Forest s) : root.val ≤ id.val := by
  induction hb with
  | self => exact Nat.le_refl _
  | child hp _ ih => exact Nat.le_trans ih (Nat.le_of_lt (hf.older _ _ hp))

namespace Forest

/-- A tree is listed in full once there are as many levels as younger tasks. -/
theorem subtreeWithin_eq (hf : Forest s) (fuel fuel' : Nat) (root : TaskId)
    (hroot : s.nextTask ≤ root.val + fuel) (hroot' : s.nextTask ≤ root.val + fuel') :
    s.subtreeWithin fuel root = s.subtreeWithin fuel' root := by
  induction fuel generalizing fuel' root with
  | zero =>
    have hdead : s.isLive root = false := by
      by_contra hl
      have := hf.fresh root (by simpa using hl)
      omega
    cases fuel' <;> simp [subtreeWithin, hdead]
  | succ fuel ih =>
    by_cases hl : s.isLive root
    · have hlt := hf.fresh root hl
      obtain ⟨fuel', rfl⟩ : ∃ n, fuel' = n + 1 := ⟨fuel' - 1, by omega⟩
      simp only [subtreeWithin, hl, if_true]
      refine congrArg (· ++ [root]) (List.flatMap_congr fun child hc => ?_)
      have := hf.lt_of_mem_children hc
      exact ih fuel' child (by omega) (by omega)
    · cases fuel' <;> simp [subtreeWithin, hl]

theorem subtree_eq (hf : Forest s) (hl : s.isLive id) :
    s.subtree id = (s.children id).flatMap s.subtree ++ [id] := by
  have hlt := hf.fresh id hl
  have hlevel : s.subtree id = s.subtreeWithin (s.nextTask + 1) id :=
    hf.subtreeWithin_eq _ _ id (by omega) (by omega)
  rw [hlevel]
  simp only [subtreeWithin, hl, if_true]
  rfl

/-- The trees of two children have no task in common. -/
theorem disjoint_children (hf : Forest s) {a b : TaskId} (ha : a ∈ s.children root)
    (hb : b ∈ s.children root) (hne : a ≠ b) : (s.subtree a).Disjoint (s.subtree b) := by
  have hapart : ∀ {a b : TaskId}, a ∈ s.children root → b ∈ s.children root → a ≠ b →
      ¬Below s a b := by
    intro a b ha hb hne hbelow
    cases hbelow with
    | self => exact hne rfl
    | child hp hbelow =>
      rw [(hf.listed b root).2 hb] at hp
      cases hp
      have := hf.lt_of_mem_children ha
      have := hbelow.le hf
      omega
  intro id hida hidb
  rcases ((hf.mem_subtree a id).1 hida).2.comparable ((hf.mem_subtree b id).1 hidb).2 with hab | hba
  · exact hapart ha hb hne hab
  · exact hapart hb ha hne.symm hba

theorem nodup_subtreeWithin (hf : Forest s) (fuel : Nat) (root : TaskId)
    (hroot : s.nextTask ≤ root.val + fuel) : (s.subtree root).Nodup := by
  induction fuel generalizing root with
  | zero =>
    rw [subtree, hf.subtreeWithin_eq s.nextTask 0 root (by omega) hroot]
    exact List.nodup_nil
  | succ fuel ih =>
    by_cases hl : s.isLive root
    · rw [hf.subtree_eq hl]
      have hbelow : ∀ child ∈ s.children root, root ∉ s.subtree child := by
        intro child hc hm
        have := hf.lt_of_mem_children hc
        have := ((hf.mem_subtree child root).1 hm).2.le hf
        omega
      refine List.nodup_append.2 ⟨List.nodup_flatMap.2 ⟨fun child hc => ?_, ?_⟩, ?_, ?_⟩
      · have := hf.lt_of_mem_children hc
        exact ih child (by omega)
      · exact (hf.nodup_children root).imp_of_mem fun ha hb hne => hf.disjoint_children ha hb hne
      · exact List.nodup_singleton root
      · rintro id hid _ hroot rfl
        obtain rfl := List.mem_singleton.1 hroot
        obtain ⟨child, hc, hm⟩ := List.mem_flatMap.1 hid
        exact hbelow child hc hm
    · have hnil : s.subtree root = [] := by
        refine List.eq_nil_iff_forall_not_mem.2 fun id hm => hl ?_
        obtain ⟨hid, hb⟩ := (hf.mem_subtree root id).1 hm
        exact hf.isLive_above hb hid
      rw [hnil]
      exact List.nodup_nil

theorem postOrder (hf : Forest s) : PostOrder s :=
  ⟨fun _ hl => hf.subtree_eq hl, hf.sorted, hf.mem_subtree,
    fun root => hf.nodup_subtreeWithin s.nextTask root (by omega)⟩

end Forest

theorem SameShape.subtree (hs : SameShape s s') (root : TaskId) :
    s'.subtree root = s.subtree root := by
  have hwithin : ∀ fuel root, s'.subtreeWithin fuel root = s.subtreeWithin fuel root := by
    intro fuel
    induction fuel with
    | zero => exact fun _ => rfl
    | succ fuel ih =>
      intro root
      simp only [subtreeWithin, hs.live, hs.children, funext ih]
  rw [Scheduler.subtree, hs.next, hwithin]
  rfl

/-! ## Signals -/

/-- Whether a task is live with a process that has not ended. -/
def hasProcess (s : Scheduler P R W) (id : TaskId) : Bool :=
  (s.task? id).any fun t => t.process.isSome

/-- The tasks of a list that are not being cancelled. -/
def calm (s : Scheduler P R W) (ids : List TaskId) : List TaskId :=
  ids.filter fun id => !s.beingCancelled id

/-- The signals to the tasks of a list that are not being cancelled. A task whose process has ended
gets none. -/
def signals (s : Scheduler P R W) (ids : List TaskId) : List (TaskId × Input) :=
  ((s.calm ids).filter s.hasProcess).map fun id => (id, .error (.cancelled id))

theorem hasProcess_of_sameTree (hs : SameTree s s') (id : TaskId) :
    s'.hasProcess id = s.hasProcess id := by
  have hstill := congrArg (Option.any fun t => t.process.isSome) (hs.still id)
  simpa [hasProcess, Option.any_map, Function.comp_def] using hstill

/-- What a signal to a live task does to the queue. -/
theorem queue_signal_of_live (hl : s.isLive id) : (s.signal id).queue =
    (s.signals [id]).reverse ++ s.queue.filter (·.1 ∉ s.calm [id]) := by
  obtain ⟨t, ht⟩ : ∃ t, s.task? id = some t := Option.isSome_iff_exists.1 hl
  have hflag := beingCancelled_eq ht
  have hprocess : s.hasProcess id = t.process.isSome := by simp [hasProcess, ht]
  cases hc : s.beingCancelled id with
  | true =>
    rw [signal_of_cancelled hc]
    simp [signals, calm, hc]
  | false =>
    cases hp : t.process.isSome with
    | true =>
      rw [queue_signal ht hp hc]
      simp [signals, calm, hc, hprocess, hp]
    | false =>
      have hmark : s.signal id = s.mark id t .children := by
        unfold signal
        simp [ht, hflag.symm.trans hc, hp]
      rw [hmark, queue_mark]
      simp [signals, calm, hc, hprocess, hp]

theorem signals_cons (s : Scheduler P R W) (id : TaskId) (ids : List TaskId) :
    s.signals (id :: ids) = s.signals [id] ++ s.signals ids := by
  simp only [signals, calm, ← List.map_append, ← List.filter_append]
  rfl

theorem calm_cons (s : Scheduler P R W) (id : TaskId) (ids : List TaskId) :
    s.calm (id :: ids) = s.calm [id] ++ s.calm ids :=
  List.filter_append [id] ids

theorem mem_signals {x : TaskId × Input} (hx : x ∈ s.signals ids) :
    x.1 ∈ s.calm ids ∧ s.hasProcess x.1 = true ∧ x.2 = .error (.cancelled x.1) := by
  obtain ⟨id, hid, rfl⟩ := List.mem_map.1 hx
  obtain ⟨hcalm, hp⟩ := List.mem_filter.1 hid
  exact ⟨hcalm, hp, rfl⟩

/-- Signals to live tasks are queued last to first. -/
theorem queue_foldl_signal (ids : List TaskId) (s : Scheduler P R W) (hnodup : ids.Nodup)
    (hlive : ∀ id ∈ ids, s.isLive id) : (ids.foldl signal s).queue =
      (s.signals ids).reverse ++ s.queue.filter (·.1 ∉ s.calm ids) := by
  induction ids generalizing s with
  | nil => simp [signals, calm]
  | cons id rest ih =>
    obtain ⟨hid, hrest⟩ := List.nodup_cons.1 hnodup
    have htree := (quiet_signal s id).tree
    have hcalm : (s.signal id).calm rest = s.calm rest := by
      refine List.filter_congr fun j hj => ?_
      have hne : j ≠ id := by
        rintro rfl
        exact hid hj
      rw [beingCancelled_signal_of_ne s hne]
    have hsignals : (s.signal id).signals rest = s.signals rest := by
      rw [signals, hcalm, signals, funext (hasProcess_of_sameTree htree)]
    have hlive' : ∀ j ∈ rest, (s.signal id).isLive j := fun j hj => by
      rw [htree.isLive]
      exact hlive j (List.mem_cons_of_mem _ hj)
    -- the signals to the rest drop nothing of what the first signal put in the queue
    have hkept : (s.signals [id]).reverse.filter (fun entry => entry.1 ∉ s.calm rest) =
        (s.signals [id]).reverse := by
      refine List.filter_eq_self.2 fun x hx => ?_
      have hx' := List.mem_of_mem_filter (mem_signals (List.mem_reverse.1 hx)).1
      have hne : x.1 ∉ s.calm rest := fun hm =>
        hid (List.mem_singleton.1 hx' ▸ List.mem_of_mem_filter hm)
      simpa using hne
    rw [List.foldl_cons, ih _ hrest hlive', hcalm, hsignals,
      queue_signal_of_live (hlive id List.mem_cons_self), List.filter_append, hkept,
      signals_cons s id rest, List.reverse_append, List.filter_filter, calm_cons s id rest]
    simp [and_comm]

/-! ## A tree that is cancelled -/

/-- No task settles, none is stepped, and nothing but the tasks is told of it. -/
structure Spared (s s' : Scheduler P R W) : Prop where
  tree : SameTree s s'
  settled : s'.settled = s.settled
  unhandled : s'.unhandled = s.unhandled
  world : s'.world = s.world
  journal : s'.journal = s.journal

/-- Cancelling a tree queues the signals to its tasks in post-order before all that is queued for
others. -/
structure CancelsTree (s : Scheduler P R W) (root : TaskId) : Prop where
  cancelling : ∀ id ∈ s.subtree root, (s.cancelSubtree root).beingCancelled id = true
  others : ∀ id, id ∉ s.subtree root →
    (s.cancelSubtree root).beingCancelled id = s.beingCancelled id
  queue : (s.cancelSubtree root).queue =
    s.signals (s.subtree root) ++ s.queue.filter (·.1 ∉ s.calm (s.subtree root))
  spared : Spared s (s.cancelSubtree root)

theorem spared_signal (s : Scheduler P R W) (id : TaskId) : Spared s (s.signal id) := by
  have hquiet := quiet_signal s id
  have hmark : ∀ t wait, (s.mark id t wait).unhandled = s.unhandled ∧
      (s.mark id t wait).world = s.world ∧ (s.mark id t wait).journal = s.journal := by
    intro t wait
    unfold mark withdraw
    cases t.wait <;> exact ⟨rfl, rfl, rfl⟩
  rcases signal_cases s id with heq | ⟨t, wait, -, -, -, heq | heq⟩
  · rw [heq]
    exact ⟨.refl s, rfl, rfl, rfl, rfl⟩
  all_goals
    obtain ⟨hunhandled, hworld, hjournal⟩ := hmark t wait
    refine ⟨hquiet.tree, hquiet.settled, ?_, ?_, ?_⟩ <;> rw [heq]
    exacts [hunhandled, hworld, hjournal]

theorem Spared.trans (hs : Spared s r) (hs' : Spared r s') : Spared s s' :=
  ⟨hs.tree.trans hs'.tree, hs'.settled.trans hs.settled, hs'.unhandled.trans hs.unhandled,
    hs'.world.trans hs.world, hs'.journal.trans hs.journal⟩

theorem spared_cancelSubtree (s : Scheduler P R W) (root : TaskId) :
    Spared s (s.cancelSubtree root) :=
  List.foldlRecOn (motive := Spared s) _ _ ⟨.refl s, rfl, rfl, rfl, rfl⟩ fun r hr id _ =>
    hr.trans (spared_signal r id)

theorem Forest.cancelsTree (hf : Forest s) (root : TaskId) : CancelsTree s root := by
  have hnodup := hf.postOrder.nodup root
  have hlive : ∀ id ∈ (s.subtree root).reverse, s.isLive id := fun id hid =>
    hf.isLive_of_mem_subtree (List.mem_reverse.1 hid)
  refine ⟨fun id hid => beingCancelled_cancelSubtree hf hid, fun id hid => ?_, ?_,
    spared_cancelSubtree s root⟩
  · exact beingCancelled_foldl_of_not_mem _ s (mt List.mem_reverse.1 hid)
  · rw [cancelSubtree, queue_foldl_signal _ s (List.nodup_reverse.2 hnodup) hlive]
    simp [signals, calm, List.filter_reverse]

/-! ## A task that cancels others -/

theorem Yielded.sameShape {effect : Effect P W} (hr : Yielded h s id effect r) :
    SameShape s r := by
  obtain ⟨t, process, ht, -, hself⟩ := hr.self
  refine ⟨fun j => ?_, fun j => ?_, fun j => ?_, hr.next⟩
  all_goals
    by_cases hj : j = id
    · simp [isLive_eq, parent?, children, hj, ht, hself]
    · simp [isLive_eq, parent?, children, hr.others j hj]

theorem Yielded.beingCancelled {effect : Effect P W} (hr : Yielded h s id effect r) (j : TaskId) :
    r.beingCancelled j = s.beingCancelled j := by
  obtain ⟨t, process, ht, -, hself⟩ := hr.self
  by_cases hj : j = id
  · rw [hj, beingCancelled_eq hself, beingCancelled_eq ht]
  · simp [Scheduler.beingCancelled, hr.others j hj]

theorem Yielded.hasProcess {effect : Effect P W} (hr : Yielded h s id effect r) (j : TaskId) :
    r.hasProcess j = s.hasProcess j := by
  obtain ⟨t, process, ht, hp, hself⟩ := hr.self
  by_cases hj : j = id
  · simp [Scheduler.hasProcess, hj, hself, ht, hp]
  · simp [Scheduler.hasProcess, hr.others j hj]

theorem beingCancelled_answer (s : Scheduler P R W) (id j : TaskId) (v : Value) :
    (s.answer id v).beingCancelled j = s.beingCancelled j := by
  have hready : (s.answer id v).beingCancelled j = (s.makeReady id).beingCancelled j := rfl
  rw [hready]
  by_cases hj : j = id <;> simp [makeReady, beingCancelled, hj, Option.any_map]

/-- The turn of a task that cancels a tree it does not belong to: its answer is queued first, and
then the tree is cancelled. -/
theorem Run.cancel_turn (run : Run h log s)
    (hturn : s.turn? h = some (caller, .yield (.cancel target))) (hl : s.isLive target)
    (houter : ¬Below s target caller) : ∃ q : Scheduler P R W, SameShape s q ∧
      (∀ j, q.beingCancelled j = s.beingCancelled j) ∧ (∀ j, q.hasProcess j = s.hasProcess j) ∧
      q.queue = (caller, .value .unit) :: s.queue.tail ∧
      s.move h .step = (q.cancelSubtree target).takeFault.2 := by
  obtain ⟨r, hr⟩ := yielded_of_turn hturn rfl
  have htree : SameTree r (r.answer caller .unit) := (quiet_answer r caller .unit).tree
  have hfr : Forest r := run.tidy.forest.congr hr.sameShape
  have hlr : r.isLive target := by rwa [hr.sameShape.live]
  have houter' : target ∉ r.lineage caller := by
    obtain ⟨t, process, -, -, hself⟩ := hr.self
    rw [hfr.mem_lineage (by simp [isLive_eq, hself])]
    exact fun hb => houter (hb.congr fun j => (hr.sameShape.parent j).symm)
  refine ⟨r.answer caller .unit, hr.sameShape.trans htree.shape, fun j => ?_, fun j => ?_, ?_,
    hr.move _ (by simp [carryOut, cancel, hlr, houter'])⟩
  · rw [beingCancelled_answer, hr.beingCancelled]
  · rw [hasProcess_of_sameTree htree, hr.hasProcess]
  · rw [← hr.queue]
    rfl

/-- The signals that a task sends to a tree it does not belong to come before its own answer, and
that before all that was queued. -/
theorem Run.queue_of_cancel (run : Run h log s)
    (hturn : s.turn? h = some (caller, .yield (.cancel target))) (hl : s.isLive target)
    (houter : ¬Below s target caller) : (s.move h .step).queue =
      s.signals (s.subtree target) ++ (caller, .value .unit) ::
        s.queue.tail.filter (·.1 ∉ s.calm (s.subtree target)) := by
  obtain ⟨q, hshape, hflags, hprocess, hqueue, hmove⟩ := run.cancel_turn hturn hl houter
  have hf := run.tidy.forest
  have hcalm : q.calm (s.subtree target) = s.calm (s.subtree target) := by
    simp only [calm, hflags]
  have hsignals : q.signals (s.subtree target) = s.signals (s.subtree target) := by
    rw [signals, hcalm, signals, funext hprocess]
  have hcaller : caller ∉ s.calm (s.subtree target) := fun hm =>
    houter ((hf.mem_subtree target caller).1 (List.mem_of_mem_filter hm)).2
  rw [hmove, queue_takeFault, ((hf.congr hshape).cancelsTree target).queue, hshape.subtree, hcalm,
    hsignals, hqueue, List.filter_cons_of_pos (by simpa using hcaller)]

theorem Run.cancelling_of_cancel (run : Run h log s)
    (hturn : s.turn? h = some (caller, .yield (.cancel target))) (hl : s.isLive target)
    (houter : ¬Below s target caller) (hid : id ∈ s.subtree target) :
    (s.move h .step).beingCancelled id = true := by
  obtain ⟨q, hshape, -, -, -, hmove⟩ := run.cancel_turn hturn hl houter
  have hcancelled := ((run.tidy.forest.congr hshape).cancelsTree target).cancelling id
    (by rwa [hshape.subtree])
  rwa [hmove, beingCancelled, task?_of_tasks (tasks_takeFault _)]

/-- What is queued for tasks that are being cancelled is not lost. -/
theorem Run.inOrder_of_cancelled (run : Run h log s) (hentries : entries.Sublist s.queue)
    (hnodup : entries.Nodup) (hcancelled : ∀ x ∈ entries, s.beingCancelled x.1 = true)
    {ms : List (Move P)} {before after : List (Scheduler P R W × Move P)}
    (hms : s.history h ms = before ++ after) (hin : InOrder h entries before) :
    entries.Sublist (turns before) := by
  obtain ⟨kept, hkept, hturns, hlost⟩ := hin
  have hall : entries ⊆ kept := by
    intro x hx
    refine (hlost x hx).resolve_right ?_
    rintro ⟨entry, he, hqueued, hcalm, -⟩
    have hentry : entry ∈ s.history h ms := hms ▸ List.mem_append_left _ he
    obtain ⟨prior, -, -, hstate⟩ := mem_history hentry
    have hfresh := run.tidy.forest.fresh x.1 (run.isLive_of_queued (hentries.subset hx))
    rw [hstate] at hqueued hcalm
    have hflag := (run.firm_moves prior).beingCancelled ((run.moves prior).isLive_of_queued hqueued)
      hfresh (hcancelled x hx)
    rw [hcalm] at hflag
    cases hflag
  have hlength := (hnodup.subperm hall).length_le
  rwa [hkept.eq_of_length_le hlength] at hturns

/-- A task that cancels a tree it does not belong to is answered after all signals were delivered,
in their order. -/
theorem Run.signals_first (run : Run h log s)
    (hturn : s.turn? h = some (caller, .yield (.cancel target))) (hl : s.isLive target)
    (houter : ¬Below s target caller) (ms : List (Move P))
    {before after : List (Scheduler P R W × Move P)}
    (hms : (s.move h .step).history h ms = before ++ e :: after)
    (hfirst : ∀ entry ∈ before, ∀ input, ¬Receives entry caller input)
    (hanswer : Receives e caller (.value .unit)) :
    (s.signals (s.subtree target)).Sublist (turns before) := by
  have hqueue := run.queue_of_cancel hturn hl houter
  have hnext := run.move (h := h) .step
  have hline : (s.signals (s.subtree target) ++ [(caller, Input.value .unit)]).Sublist
      (s.move h .step).queue := by
    rw [hqueue]
    exact (List.Sublist.refl _).append (List.singleton_sublist.2 List.mem_cons_self)
  have hsame := hnext.unsignalled_of_answer (hline.subset (by simp)) ms hms hfirst hanswer
  have hin := hnext.served_in_order hline ms hms hanswer hsame
  refine hnext.inOrder_of_cancelled ((List.sublist_append_left _ _).trans hline) ?_ ?_ hms hin
  · have hnodup := (run.tidy.forest.postOrder.nodup target).filter fun id => !s.beingCancelled id
    exact (hnodup.filter s.hasProcess).map fun _ _ heq => (Prod.mk.inj heq).1
  · exact fun x hx =>
      run.cancelling_of_cancel hturn hl houter (List.mem_of_mem_filter (mem_signals hx).1)

/-- A tree is cancelled innermost first, and nothing settles or is stepped by that. A task that
cancels a tree it does not belong to is answered after every signal was delivered, in post-order,
whatever happens in between. -/
theorem Run.cancels_innermost_first (run : Run h log s) :
    PostOrder s ∧ (∀ root, s.isLive root → CancelsTree s root) ∧
    ∀ caller target, s.turn? h = some (caller, .yield (.cancel target)) → s.isLive target →
      ¬Below s target caller →
      (s.move h .step).queue = s.signals (s.subtree target) ++ (caller, .value .unit) ::
        s.queue.tail.filter (·.1 ∉ s.calm (s.subtree target)) ∧
      ∀ ms before e after, (s.move h .step).history h ms = before ++ e :: after →
        (∀ entry ∈ before, ∀ input, ¬Receives entry caller input) →
        Receives e caller (.value .unit) →
        (s.signals (s.subtree target)).Sublist (turns before) := by
  have hf := run.tidy.forest
  refine ⟨hf.postOrder, fun root _ => hf.cancelsTree root, fun caller target hturn hl houter => ?_⟩
  exact ⟨run.queue_of_cancel hturn hl houter,
    fun ms before e after hms => run.signals_first hturn hl houter ms hms⟩

/-- Scripts around one tree. -/
inductive Grower where
  /-- Waits for a notification. -/
  | leaf
  /-- Forks two leaves, and waits for a notification. -/
  | trunk
  /-- Cancels the first task. -/
  | feller

def Grower.effects : Grower → List (Effect Grower Unit)
  | .leaf => [.take .wildcard]
  | .trunk => [.fork .leaf [], .fork .leaf [], .take .wildcard]
  | .feller => [.cancel ⟨1⟩]

def grove : Host Grower Unit Unit where
  program := ⟨fun _ => "grower", fun p => .script p.effects, fun state _ w => (.done .unit, state, w)⟩

def groveAfter (ms : List (Move Grower)) : Scheduler Grower Unit Unit :=
  moves { world := () } grove ms

theorem groveAfter_run (ms : List (Move Grower)) :
    Run grove (history { world := () } grove ms) (groveAfter ms) := by
  have hnew : Run grove [] (({ world := () } : Scheduler Grower Unit Unit)) := .new rfl
  exact hnew.moves ms

/-- A trunk and two leaves wait, and another task is about to cancel the trunk. -/
def fellingDay : Scheduler Grower Unit Unit :=
  groveAfter [.enroll .trunk [], .step, .step, .step, .step, .step, .enroll .feller []]

/-- The leaves are signalled before the trunk, in the order of spawning, and all of them are stepped
before the task that cancelled them goes on. -/
theorem cancels_innermost_first_grove :
    fellingDay.subtree ⟨1⟩ = [⟨2⟩, ⟨3⟩, ⟨1⟩] ∧
    (fellingDay.move grove .step).queue.map Prod.fst = [⟨2⟩, ⟨3⟩, ⟨1⟩, ⟨4⟩] ∧
    (fellingDay.signals [⟨2⟩, ⟨3⟩, ⟨1⟩]).Sublist
      (turns ((fellingDay.move grove .step).history grove [.step, .step, .step])) := by
  have run : Run grove _ fellingDay := groveAfter_run _
  obtain ⟨-, -, hcancel⟩ := run.cancels_innermost_first
  have houter : ¬Below fellingDay ⟨1⟩ ⟨4⟩ := fun hb => by
    have hnone : fellingDay.parent? ⟨4⟩ = none := rfl
    have heq := (below_of_root hnone).1 hb
    exact absurd heq (by decide)
  obtain ⟨hqueue, hfirst⟩ := hcancel ⟨4⟩ ⟨1⟩ rfl rfl houter
  have hids : (turns ((fellingDay.move grove .step).history grove [.step, .step, .step])).map
      Prod.fst = [⟨2⟩, ⟨3⟩, ⟨1⟩] := rfl
  refine ⟨rfl, by rw [hqueue]; rfl, ?_⟩
  exact hfirst [.step, .step, .step, .step] _ _ [] rfl
    (not_receives_of_turns hids (by decide)) ⟨rfl, rfl⟩

end CoopTasks.Scheduler

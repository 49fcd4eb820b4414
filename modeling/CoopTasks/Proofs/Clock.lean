import CoopTasks.Proofs.Waning

/-!
# The clock and the timers

Operations are numbered in the order of their registration, and timers are set for now or later. So
no timer is ever behind the clock, as long as the clock is not set beyond one. What fires first is
the timer with the first deadline, of several with the same deadline the one that was set first.
-/

namespace CoopTasks

namespace Pending

variable {p p' p'' : Pending} {x y z : Nat × OperationId} {limit now : Nat}

/-! ## The order of the timers -/

theorem earlier_iff : earlier x y ↔ x.1 < y.1 ∨ x.1 = y.1 ∧ x.2.val < y.2.val := by
  simp [earlier]

theorem earlier_trans (hxy : earlier x y) (hyz : earlier y z) : earlier x z := by
  rw [earlier_iff] at hxy hyz ⊢
  omega

theorem earlier_of_not (hxz : earlier x z) (hyz : ¬earlier y z) : earlier x y := by
  rw [earlier_iff] at hxz hyz ⊢
  omega

/-- Of two timers one is earlier. -/
theorem earlier_of_ne (hne : x.2 ≠ y.2) (hnot : ¬earlier x y) : earlier y x := by
  have hval : x.2.val ≠ y.2.val := fun heq => hne (congrArg OperationId.mk heq)
  rw [earlier_iff] at hnot ⊢
  omega

theorem not_earlier_self : ¬earlier x x := by
  rw [earlier_iff]
  omega

theorem first?_eq_none {timers : List (Nat × OperationId)} :
    first? timers = none ↔ timers = [] := by
  cases timers with
  | nil => simp [first?]
  | cons timer rest =>
    unfold first?
    cases first? rest with
    | none => simp
    | some other => dsimp only; split <;> simp

/-- The first timer is one of them, and none is earlier. -/
theorem first?_spec {timers : List (Nat × OperationId)} (hx : first? timers = some x) :
    x ∈ timers ∧ ∀ y ∈ timers, ¬earlier y x := by
  induction timers generalizing x with
  | nil => cases hx
  | cons timer rest ih =>
    unfold first? at hx
    cases hrest : first? rest with
    | none =>
      rw [hrest] at hx
      cases hx
      rw [first?_eq_none.1 hrest]
      simp [not_earlier_self]
    | some other =>
      obtain ⟨hmem, hleast⟩ := ih hrest
      simp only [hrest] at hx
      split at hx <;> cases hx
      · rename_i hearlier
        refine ⟨List.mem_cons_of_mem _ hmem, fun y hy hback => ?_⟩
        rcases List.mem_cons.1 hy with rfl | hy
        · exact not_earlier_self (earlier_trans hback hearlier)
        · exact hleast y hy hback
      · rename_i hnot
        refine ⟨List.mem_cons_self, fun y hy hback => ?_⟩
        rcases List.mem_cons.1 hy with rfl | hy
        · exact not_earlier_self hback
        · exact hleast y hy (earlier_of_not hback hnot)

theorem due?_spec (hx : p.due? limit = some x) :
    x ∈ p.timers ∧ x.1 ≤ limit ∧ ∀ y ∈ p.timers, ¬earlier y x := by
  obtain ⟨hfirst, hle⟩ := Option.filter_eq_some_iff.1 hx
  obtain ⟨hmem, hleast⟩ := first?_spec hfirst
  exact ⟨hmem, of_decide_eq_true hle, hleast⟩

theorem due?_eq_none : p.due? limit = none ↔ ∀ y ∈ p.timers, limit < y.1 := by
  constructor
  · intro hnone y hy
    cases hfirst : first? p.timers with
    | none => simp [first?_eq_none.1 hfirst] at hy
    | some x =>
      have hx : limit < x.1 := by simpa [due?, hfirst] using hnone
      have hnot := (first?_spec hfirst).2 y hy
      rw [earlier_iff] at hnot
      omega
  · intro hall
    cases hdue : p.due? limit with
    | none => rfl
    | some x =>
      obtain ⟨hmem, hle, -⟩ := due?_spec hdue
      exact absurd (hall x hmem) (Nat.not_lt.2 hle)

/-- The first timer has the first deadline. -/
theorem due?_le (hx : p.due? limit = some x) : ∀ y ∈ p.timers, x.1 ≤ y.1 := by
  intro y hy
  have hnot := (due?_spec hx).2.2 y hy
  rw [earlier_iff] at hnot
  omega

/-! ## The index -/

/-- The operations are listed in the order of their numbers. Those that have a timer are among them,
in the same order, and each has one timer. -/
structure Sound (p : Pending) : Prop where
  numbered : p.awaited.Numbered OperationId.val p.nextId
  indexed : (p.timers.map Prod.snd).Sublist p.awaited.keys

theorem sound_new : Sound {} := ⟨⟨.nil, by simp [Table.keys, Table.empty]⟩, List.nil_sublist _⟩

theorem Sound.new_not_mem (hp : p.Sound) : (⟨p.nextId⟩ : OperationId) ∉ p.awaited.keys :=
  fun hm => Nat.lt_irrefl _ (hp.numbered.fresh _ hm)

theorem Sound.defer (hp : p.Sound) (owner : TaskId) : (p.defer owner).2.Sound := by
  refine ⟨hp.numbered.insert rfl owner, ?_⟩
  change (p.timers.map Prod.snd).Sublist (p.awaited.insert ⟨p.nextId⟩ owner).keys
  rw [Table.keys_insert _ hp.new_not_mem]
  exact hp.indexed.trans (List.sublist_append_left _ _)

/-- A timer goes to the end of the index, as its operation goes to the end of the table. -/
theorem Sound.schedule (hp : p.Sound) (owner : TaskId) (after : Nat) :
    (p.schedule owner after).2.Sound := by
  refine ⟨hp.numbered.insert rfl owner, ?_⟩
  change ((p.timers ++ [(p.clock + after, (⟨p.nextId⟩ : OperationId))]).map Prod.snd).Sublist
    (p.awaited.insert ⟨p.nextId⟩ owner).keys
  rw [Table.keys_insert _ hp.new_not_mem, List.map_append]
  exact hp.indexed.append (.refl _)

theorem Sound.forgets (hp : p.Sound) (hf : Forgets p p') : p'.Sound := by
  obtain ⟨ops, hawaited, htimers⟩ := hf.kept
  have hkeys : p'.awaited.keys = p.awaited.keys.filter (· ∉ ops) := by
    simp [Table.keys, hawaited, List.filter_map, Function.comp_def]
  refine ⟨?_, ?_⟩
  · have hkept : p'.awaited.Numbered OperationId.val p.nextId :=
      hp.numbered.of_sublist (hkeys ▸ List.filter_sublist)
    rwa [← hf.next] at hkept
  · have hindex : p'.timers.map Prod.snd = (p.timers.map Prod.snd).filter (· ∉ ops) := by
      simp [htimers, List.filter_map, Function.comp_def]
    rw [hkeys, hindex]
    exact hp.indexed.filter _

theorem Sound.discard (hp : p.Sound) (op : OperationId) : (p.discard op).Sound :=
  hp.forgets (forgets_discard p op)

/-- A timer leaves the index before its operation leaves the table. -/
theorem Sound.elapses (hp : p.Sound) (he : Elapses now p p') : p'.Sound := by
  refine ⟨?_, ?_⟩
  · rw [he.awaited, he.next]
    exact hp.numbered
  · rw [he.awaited]
    exact (he.timers.map _).trans hp.indexed

theorem Sound.expire (hp : p.Sound) (timer : Nat × OperationId) : (p.expire timer).Sound :=
  hp.elapses (elapses_expire p timer)

theorem Sound.mem_awaited (hp : p.Sound) (hx : x ∈ p.timers) : x.2 ∈ p.awaited.keys :=
  hp.indexed.subset (List.mem_map_of_mem hx)

/-- A timer belongs to an operation that is awaited. -/
theorem Sound.find_timer (hp : p.Sound) (hx : x ∈ p.timers) :
    ∃ owner, p.awaited.find? x.2 = some owner :=
  Option.isSome_iff_exists.1 ((Table.mem_keys _ _).1 (hp.mem_awaited hx))

/-- An operation has one timer at most. -/
theorem Sound.nodup_timers (hp : p.Sound) : (p.timers.map Prod.snd).Nodup :=
  hp.numbered.nodup.sublist hp.indexed

theorem Sound.timer_unique (hp : p.Sound) (hx : x ∈ p.timers) (hy : y ∈ p.timers)
    (hop : x.2 = y.2) : x = y :=
  List.inj_on_of_nodup_map hp.nodup_timers hx hy hop

/-! ## Registration -/

/-- No timer is behind the clock. -/
def Timely (p : Pending) : Prop := ∀ timer ∈ p.timers, p.clock ≤ timer.1

/-- Operations are withdrawn, and new ones registered, while the clock stands still. A timer stays
in the index as long as its operation is awaited. -/
structure Proceeds (p p' : Pending) : Prop where
  clock : p'.clock = p.clock
  next : p.nextId ≤ p'.nextId
  entries : ∀ entry ∈ p'.awaited.entries, entry ∈ p.awaited.entries ∨ p.nextId ≤ entry.1.val
  timers : ∀ timer ∈ p'.timers,
    timer ∈ p.timers ∨ p.nextId ≤ timer.2.val ∧ p.clock ≤ timer.1
  kept : p.Sound → ∀ timer ∈ p.timers, timer.2 ∈ p'.awaited.keys → timer ∈ p'.timers
  sound : p.Sound → p'.Sound

theorem Forgets.proceeds (hf : Forgets p p') : Proceeds p p' := by
  refine ⟨hf.clock, Nat.le_of_eq hf.next.symm, fun _ hm => Or.inl (hf.awaited.subset hm),
    fun timer hm => ?_, fun _ timer hm hop => ?_, fun hp => hp.forgets hf⟩ <;>
    obtain ⟨ops, hawaited, htimers⟩ := hf.kept
  · rw [htimers] at hm
    exact Or.inl (List.mem_of_mem_filter hm)
  · rw [Table.keys, hawaited] at hop
    obtain ⟨entry, hentry, heq⟩ := List.mem_map.1 hop
    rw [htimers]
    exact List.mem_filter.2 ⟨hm, heq ▸ (List.mem_filter.1 hentry).2⟩

theorem Proceeds.refl (p : Pending) : Proceeds p p := (Forgets.refl p).proceeds

theorem Proceeds.trans (hp : Proceeds p p') (hp' : Proceeds p' p'') : Proceeds p p'' := by
  refine ⟨hp'.clock.trans hp.clock, Nat.le_trans hp.next hp'.next, fun entry hm => ?_,
    fun timer hm => ?_, fun hsound timer hm hop => ?_, fun hsound => hp'.sound (hp.sound hsound)⟩
  · exact (hp'.entries entry hm).elim (hp.entries entry) fun hnew => Or.inr (hp.next.trans hnew)
  · rcases hp'.timers timer hm with hm | ⟨hnew, hdeadline⟩
    · exact hp.timers timer hm
    · exact Or.inr ⟨hp.next.trans hnew, hp.clock ▸ hdeadline⟩
  · -- the operation was awaited all the time, for its number is not a new one
    have hold := hsound.numbered.fresh _ (hsound.mem_awaited hm)
    obtain ⟨entry, hentry, heq⟩ := List.mem_map.1 hop
    have hbetween := (hp'.entries entry hentry).resolve_right fun hnew =>
      Nat.not_lt.2 (hp.next.trans hnew) (heq ▸ hold)
    have hm' := hp.kept hsound timer hm (heq ▸ List.mem_map_of_mem (f := Prod.fst) hbetween)
    exact hp'.kept (hp.sound hsound) timer hm' hop

theorem proceeds_defer (p : Pending) (owner : TaskId) : Proceeds p (p.defer owner).2 := by
  refine ⟨rfl, Nat.le_succ _, fun entry hm => ?_, fun _ hm => Or.inl hm, fun _ _ hm _ => hm,
    fun hp => hp.defer owner⟩
  rcases Table.mem_insert hm with hm | rfl
  · exact Or.inl hm
  · exact Or.inr (Nat.le_refl _)

theorem proceeds_schedule (p : Pending) (owner : TaskId) (after : Nat) :
    Proceeds p (p.schedule owner after).2 := by
  refine ⟨rfl, Nat.le_succ _, (proceeds_defer p owner).entries, fun timer hm => ?_,
    fun _ _ hm _ => List.mem_append_left _ hm, fun hp => hp.schedule owner after⟩
  refine (List.mem_append.1 hm).imp_right fun hnew => ?_
  rw [List.mem_singleton.1 hnew]
  exact ⟨Nat.le_refl _, Nat.le_add_right _ _⟩

theorem proceeds_carryOut {W : Type} (caller : TaskId) (request : Invocation W) (p : Pending) :
    Proceeds p (p.carryOut caller request).2.1 := by
  induction request generalizing p with
  | answer result world => exact .refl p
  | await id world => exact .refl p
  | defer next ih => exact (proceeds_defer p caller).trans (ih _ _)
  | timer after next ih => exact (proceeds_schedule p caller after).trans (ih _ _)
  | now next ih => exact ih p.clock p
  | complete id result next ih =>
    have hqueued : Forgets p (p.enqueue ⟨id, result⟩) := .of_same rfl rfl rfl rfl
    exact hqueued.proceeds.trans (ih _)

theorem Timely.proceeds (ht : p.Timely) (hp : Proceeds p p') : p'.Timely := by
  intro timer hm
  rw [hp.clock]
  rcases hp.timers timer hm with hm | ⟨-, hle⟩
  · exact ht timer hm
  · exact hle

/-- The clock may be set as far as the first timer. -/
theorem Timely.elapses (ht : p.Timely) (he : Elapses now p p')
    (hnow : ∀ timer ∈ p.timers, now ≤ timer.1) : p'.Timely := by
  intro timer hm
  have hm := he.timers.subset hm
  rw [he.clock]
  exact Nat.max_le.2 ⟨ht timer hm, hnow timer hm⟩

end Pending

namespace Scheduler

variable {P R W : Type} {s s' : Scheduler P R W} {h : Host P R W}
variable {log : List (Scheduler P R W × Move P)}

/-! ## Moves -/

/-- The clock stands still in every move but those that set it. -/
theorem proceeds_move (s : Scheduler P R W) (h : Host P R W) (m : Move P) :
    s.pending.Proceeds (s.move h m).pending ∨
      ∃ now, time? m = some now ∧ Pending.Elapses now s.pending (s.move h m).pending := by
  cases waning_move s h m with
  | wanes hs => exact Or.inl hs.pending.proceeds
  | joined id target _ _ _ hs => exact Or.inl (hs.pending ▸ .refl _)
  | invoked id operation args _ _ _ hs =>
    obtain ⟨world, hpending⟩ := hs.pending
    exact Or.inl (hpending ▸ Pending.proceeds_carryOut id _ _)
  | clock now pending hclock _ hmove he => exact Or.inr ⟨now, hclock, by rw [hmove]; exact he⟩

theorem clock_move (s : Scheduler P R W) (h : Host P R W) (m : Move P) :
    s.pending.clock ≤ (s.move h m).pending.clock := by
  rcases proceeds_move s h m with hp | ⟨now, -, he⟩
  · exact Nat.le_of_eq hp.clock.symm
  · exact he.clock ▸ Nat.le_max_left _ _

theorem mem_applyTrail {m : Move P} {cs : List Completion} (hm : m ∈ s.applyTrail cs) :
    m = .receive := by
  induction cs generalizing s with
  | nil => cases hm
  | cons c rest ih =>
    simp only [applyTrail, List.mem_cons] at hm
    rcases hm with rfl | hm
    · rfl
    · cases hr : s.receive c rest with
      | mk reply r =>
        rw [hr] at hm
        cases reply with
        | error e => cases hm
        | ok u => exact ih hm

/-- A run takes queued completions, and steps tasks. -/
theorem mem_runTrail {m : Move P} (hm : m ∈ s.runTrail h) : m = .receive ∨ m = .step := by
  have hwithin : ∀ left (s : Scheduler P R W), m ∈ runTrailWithin h left s →
      m = .receive ∨ m = .step := by
    intro left
    induction left with
    | zero => exact fun s hm => Or.inl (mem_applyTrail hm)
    | succ left ih =>
      intro s hm
      rw [runTrailWithin, List.mem_append] at hm
      rcases hm with hm | hm
      · exact Or.inl (mem_applyTrail hm)
      · cases happly : s.applyInbox with
        | mk reply r =>
          rw [happly] at hm
          cases reply with
          | error e => cases hm
          | ok u =>
            cases hstep : r.stepNext? h with
            | none => simp [hstep] at hm
            | some next =>
              obtain ⟨answer, r'⟩ := next
              cases answer with
              | error e => exact Or.inr (by simpa [hstep] using hm)
              | ok u =>
                simp only [hstep, List.mem_cons] at hm
                exact hm.elim Or.inr (ih r')
  exact hwithin _ s hm

/-- A completion is delivered, and then a run follows. -/
theorem completeTrail_eq (s : Scheduler P R W) (h : Host P R W) (c : Completion) :
    ∃ ms, s.completeTrail h c = .deliver c :: ms ∧ ∀ m ∈ ms, m = .receive ∨ m = .step := by
  refine ⟨_, rfl, fun m hm => ?_⟩
  cases happly : s.applyCompletion c with
  | mk reply r =>
    rw [happly] at hm
    cases reply with
    | error e => cases hm
    | ok u => exact mem_runTrail hm

theorem mem_completeTrail {c : Completion} {m : Move P} (hm : m ∈ s.completeTrail h c) :
    m = .deliver c ∨ m = .receive ∨ m = .step := by
  obtain ⟨ms, heq, hms⟩ := completeTrail_eq s h c
  rw [heq, List.mem_cons] at hm
  exact hm.imp_right (hms m)

/-- The clock stands still in moves that do not set it. -/
theorem proceeds_moves (s : Scheduler P R W) (h : Host P R W) {ms : List (Move P)}
    (hms : ∀ m ∈ ms, time? m = none) : s.pending.Proceeds (s.moves h ms).pending := by
  induction ms generalizing s with
  | nil => exact .refl _
  | cons m ms ih =>
    rcases proceeds_move s h m with hp | ⟨now, hclock, -⟩
    · exact hp.trans (ih _ fun m' hm' => hms m' (List.mem_cons_of_mem _ hm'))
    · rw [hms m List.mem_cons_self] at hclock
      cases hclock

theorem time?_of_runTrail {m : Move P} (hm : m ∈ s.runTrail h) : time? m = none := by
  rcases mem_runTrail hm with rfl | rfl <;> rfl

theorem time?_of_completeTrail {c : Completion} {m : Move P} (hm : m ∈ s.completeTrail h c) :
    time? m = none := by
  rcases mem_completeTrail hm with rfl | rfl | rfl <;> rfl

theorem proceeds_run (s : Scheduler P R W) (h : Host P R W) :
    s.pending.Proceeds (s.run h).2.pending := by
  rw [run_moves]
  exact proceeds_moves s h fun _ => time?_of_runTrail

theorem proceeds_complete (s : Scheduler P R W) (h : Host P R W) (c : Completion) :
    s.pending.Proceeds (s.complete h c).2.pending := by
  rw [complete_moves]
  exact proceeds_moves s h fun _ => time?_of_completeTrail

/-- Of two settings of the clock the further one counts. -/
theorem setClock_setClock (s : Scheduler P R W) {now now' : Nat} (hle : now ≤ now') :
    (s.setClock now).setClock now' = s.setClock now' := by
  simp [setClock, Pending.setClock, Nat.max_assoc, Nat.max_eq_right hle]

end Scheduler

end CoopTasks

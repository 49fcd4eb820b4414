import CoopTasks.Proofs.Breaches
import CoopTasks.Proofs.Roles

/-!
# Well-formed effects

An effect is well-formed if every effect within it is sound by itself: a race has branches, with
keys that are not empty and all different, and a fixed buffer has room. The check accepts these and
no others. What it reports of the others are their defects, each at its place, in the order in which
the places were written down. Branches run the parts of effects that were accepted, so they are not
rejected when their turn comes.
-/

namespace CoopTasks.Effect

variable {P W : Type} {effect part whole : Effect P W} {effects : List (Effect P W)}
variable {branches : List (String × Effect P W)}

/-! ## Well-formed effects -/

/-- An effect is within itself and within whatever one of its parts is within. -/
inductive Within (part : Effect P W) : Effect P W → Prop where
  | self : Within part part
  | inner {effect whole : Effect P W} :
    effect ∈ whole.parts → Within part effect → Within part whole

/-- What is asked of an effect, whatever its parts are. -/
def Sound : Effect P W → Prop
  | .race branches =>
    branches ≠ [] ∧ (∀ branch ∈ branches, branch.1 ≠ "") ∧ (branches.map Prod.fst).Nodup
  | .channel (.fixed capacity _) => 1 ≤ capacity
  | _ => True

def WellFormed (effect : Effect P W) : Prop := ∀ part, Within part effect → part.Sound

/-! ## Defects and their places -/

/-- A place in an effect: the effect itself, the key in some slot, or a place in the effect in some
slot. -/
inductive Place where
  | here
  | key (slot : Nat)
  | inner (slot : Nat) (place : Place)

/-- The order in which places are written down: slot by slot, each key before what it is the key of.
-/
def Place.Before : Place → Place → Prop
  | .here, .here => False
  | .here, .key _ | .here, .inner _ _ => True
  | .key _, .here | .inner _ _, .here => False
  | .key slot, .key slot' => slot < slot'
  | .key slot, .inner slot' _ => slot ≤ slot'
  | .inner slot _, .key slot' => slot < slot'
  | .inner slot place, .inner slot' place' => slot < slot' ∨ slot = slot' ∧ place.Before place'

theorem Place.Before.asymm {a b : Place} (hab : a.Before b) : ¬b.Before a := by
  induction a generalizing b with
  | here => cases b <;> exact id
  | key slot => cases b <;> simp only [Before] at hab ⊢ <;> omega
  | inner slot place ih =>
    cases b with
    | here => cases hab
    | key slot' => simp only [Before] at hab ⊢; omega
    | inner slot' place' =>
      rcases hab with hlt | ⟨rfl, hab⟩
      · rintro (hlt' | ⟨rfl, -⟩) <;> omega
      · rintro (hlt' | ⟨-, hba⟩)
        · omega
        · exact ih hab hba

/-- What is wrong with an effect, and where. An empty key is not repeated: it is no key. -/
inductive Defect : Effect P W → Place → Problem → Prop where
  | emptyRace : Defect (.race []) .here .emptyRace
  | zeroCapacity {overflow : Overflow} : Defect (.channel (.fixed 0 overflow)) .here .zeroCapacity
  | emptyKey {branches : List (String × Effect P W)} {slot : Nat} {effect : Effect P W} :
    branches[slot]? = some ("", effect) → Defect (.race branches) (.key slot) .emptyKey
  | repeatedKey {branches : List (String × Effect P W)} {slot : Nat} {key : String}
      {effect : Effect P W} : branches[slot]? = some (key, effect) → key ≠ "" →
    key ∈ (branches.take slot).map Prod.fst → Defect (.race branches) (.key slot) (.repeatedKey key)
  | inner {whole effect : Effect P W} {slot : Nat} {place : Place} {problem : Problem} :
    whole.parts[slot]? = some effect → Defect effect place problem →
      Defect whole (.inner slot place) problem

variable {D D' : Place → Problem → Prop} {problems problems' : List Problem} {place : Place}
variable {problem : Problem} {seen : List String} {slot : Nat}

theorem Defect.exists_part (hd : Defect effect (.inner slot place) problem) :
    ∃ part, effect.parts[slot]? = some part ∧ Defect part place problem := by
  cases hd with
  | inner hpart hd => exact ⟨_, hpart, hd⟩

/-! ## The problems are the defects -/

/-- The problems are those that `D` knows of, in the order of their places. -/
def Finds (D : Place → Problem → Prop) (problems : List Problem) : Prop :=
  ∃ found : List (Place × Problem), found.map Prod.snd = problems ∧
    found.Pairwise (fun a b => a.1.Before b.1) ∧
    ∀ place problem, (place, problem) ∈ found ↔ D place problem

namespace Finds

theorem congr (hf : Finds D problems) (heq : ∀ place problem, D place problem ↔ D' place problem) :
    Finds D' problems := by
  obtain ⟨found, hproblems, hsorted, hmem⟩ := hf
  exact ⟨found, hproblems, hsorted, fun place problem => (hmem place problem).trans (heq _ _)⟩

theorem nil (hnone : ∀ place problem, ¬D place problem) : Finds D [] :=
  ⟨[], rfl, .nil, by simpa using hnone⟩

theorem single (place : Place) (problem : Problem) :
    Finds (fun place' problem' => place' = place ∧ problem' = problem) [problem] :=
  ⟨[(place, problem)], rfl, List.pairwise_singleton _ _, by simp⟩

theorem append (hf : Finds D problems) (hf' : Finds D' problems')
    (hbefore : ∀ place place' problem problem', D place problem → D' place' problem' →
      place.Before place') :
    Finds (fun place problem => D place problem ∨ D' place problem) (problems ++ problems') := by
  obtain ⟨found, rfl, hsorted, hmem⟩ := hf
  obtain ⟨found', rfl, hsorted', hmem'⟩ := hf'
  refine ⟨found ++ found', List.map_append, List.pairwise_append.2 ⟨hsorted, hsorted', ?_⟩, ?_⟩
  · rintro ⟨place, problem⟩ ha ⟨place', problem'⟩ hb
    exact hbefore _ _ _ _ ((hmem _ _).1 ha) ((hmem' _ _).1 hb)
  · intro place problem
    rw [List.mem_append, hmem, hmem']

theorem inner (hf : Finds D problems) (slot : Nat) :
    Finds (fun place problem => ∃ rest, place = .inner slot rest ∧ D rest problem) problems := by
  obtain ⟨found, rfl, hsorted, hmem⟩ := hf
  refine ⟨found.map fun f => (.inner slot f.1, f.2), ?_, ?_, ?_⟩
  · rw [List.map_map]
    rfl
  · exact hsorted.map _ fun a b hab => .inr ⟨rfl, hab⟩
  · intro place problem
    simp only [List.mem_map, Prod.exists, Prod.mk.injEq, hmem]
    constructor
    · rintro ⟨rest, problem, hd, rfl, rfl⟩
      exact ⟨rest, rfl, hd⟩
    · rintro ⟨rest, rfl, hd⟩
      exact ⟨rest, problem, hd, rfl, rfl⟩

end Finds

/-- There is one such list. -/
theorem Finds.unique (hf : Finds D problems) (hf' : Finds D problems') : problems = problems' := by
  obtain ⟨found, rfl, hsorted, hmem⟩ := hf
  obtain ⟨found', rfl, hsorted', hmem'⟩ := hf'
  have : Std.Irrefl fun a b : Place × Problem => a.1.Before b.1 := ⟨fun a haa => haa.asymm haa⟩
  have : Std.Antisymm fun a b : Place × Problem => a.1.Before b.1 :=
    ⟨fun a b hab hba => absurd hba hab.asymm⟩
  rw [hsorted.eq_of_mem_iff hsorted' fun f => (hmem f.1 f.2).trans (hmem' f.1 f.2).symm]

/-! ## Slot by slot -/

/-- The defects of the effects in the slots from `first` on. -/
def DefectFrom (first : Nat) (effects : List (Effect P W)) (place : Place) (problem : Problem) :
    Prop :=
  ∃ slot effect rest, effects[slot]? = some effect ∧ place = .inner (first + slot) rest ∧
    Defect effect rest problem

/-- The defects of the branches in the slots from `first` on, which follow branches with the given
keys. -/
def BranchDefectFrom (first : Nat) (seen : List String) (branches : List (String × Effect P W))
    (place : Place) (problem : Problem) : Prop :=
  ∃ slot key effect, branches[slot]? = some (key, effect) ∧
    (place = .key (first + slot) ∧
        problem ∈ keyProblems (((branches.take slot).map Prod.fst).reverse ++ seen) key ∨
      ∃ rest, place = .inner (first + slot) rest ∧ Defect effect rest problem)

theorem defectFrom_cons (first : Nat) (effect : Effect P W) (rest : List (Effect P W))
    (place : Place) (problem : Problem) : DefectFrom first (effect :: rest) place problem ↔
      (∃ below, place = .inner first below ∧ Defect effect below problem) ∨
        DefectFrom (first + 1) rest place problem := by
  constructor
  · rintro ⟨slot, part, below, hpart, rfl, hd⟩
    cases slot with
    | zero =>
      obtain rfl := Option.some.inj hpart
      exact .inl ⟨below, rfl, hd⟩
    | succ slot => exact .inr ⟨slot, part, below, hpart, by rw [Nat.add_right_comm]; rfl, hd⟩
  · rintro (⟨below, rfl, hd⟩ | ⟨slot, part, below, hpart, rfl, hd⟩)
    · exact ⟨0, effect, below, rfl, rfl, hd⟩
    · exact ⟨slot + 1, part, below, hpart, by rw [Nat.add_right_comm]; rfl, hd⟩

theorem branchDefectFrom_cons (first : Nat) (seen : List String) (key : String)
    (effect : Effect P W) (rest : List (String × Effect P W)) (place : Place) (problem : Problem) :
    BranchDefectFrom first seen ((key, effect) :: rest) place problem ↔
      ((place = .key first ∧ problem ∈ keyProblems seen key) ∨
          ∃ below, place = .inner first below ∧ Defect effect below problem) ∨
        BranchDefectFrom (first + 1) (key :: seen) rest place problem := by
  have hseen : ∀ slot, ((((key, effect) :: rest).take (slot + 1)).map Prod.fst).reverse ++ seen =
      ((rest.take slot).map Prod.fst).reverse ++ key :: seen := by
    intro slot
    simp
  constructor
  · rintro ⟨slot, key', part, hbranch, hd⟩
    cases slot with
    | zero =>
      cases hbranch
      exact .inl hd
    | succ slot =>
      rw [hseen, ← Nat.add_assoc, Nat.add_right_comm] at hd
      exact .inr ⟨slot, key', part, hbranch, hd⟩
  · rintro (hd | ⟨slot, key', part, hbranch, hd⟩)
    · exact ⟨0, key, effect, rfl, hd⟩
    · refine ⟨slot + 1, key', part, hbranch, ?_⟩
      rwa [hseen, ← Nat.add_assoc, Nat.add_right_comm]

theorem mem_keyProblems {key : String} : problem ∈ keyProblems seen key ↔
    key = "" ∧ problem = .emptyKey ∨ key ≠ "" ∧ key ∈ seen ∧ problem = .repeatedKey key := by
  unfold keyProblems
  split
  · simp [*]
  · split <;> simp [*]

theorem defect_all : Defect (.all effects) place problem ↔ DefectFrom 0 effects place problem := by
  constructor
  · rintro (_ | _ | _ | _ | ⟨hpart, hd⟩)
    exact ⟨_, _, _, hpart, by rw [Nat.zero_add], hd⟩
  · rintro ⟨slot, effect, rest, hpart, rfl, hd⟩
    rw [Nat.zero_add]
    exact .inner hpart hd

theorem defect_race (hne : branches ≠ []) : Defect (.race branches) place problem ↔
    BranchDefectFrom 0 [] branches place problem := by
  have hpart : ∀ (slot : Nat) (key : String) (effect : Effect P W),
      branches[slot]? = some (key, effect) → (race branches).parts[slot]? = some effect := by
    intro slot key effect hbranch
    simp [parts, hbranch]
  constructor
  · intro hd
    cases hd with
    | emptyRace => exact absurd rfl hne
    | emptyKey hbranch =>
      exact ⟨_, _, _, hbranch, .inl ⟨by rw [Nat.zero_add], by simp [keyProblems]⟩⟩
    | repeatedKey hbranch hkey hearlier =>
      refine ⟨_, _, _, hbranch, .inl ⟨by rw [Nat.zero_add], ?_⟩⟩
      refine mem_keyProblems.2 (.inr ⟨hkey, ?_, rfl⟩)
      simpa using hearlier
    | inner hslot hd =>
      obtain ⟨⟨key, effect⟩, hbranch, rfl⟩ := Option.map_eq_some_iff.1 (List.getElem?_map ▸ hslot)
      exact ⟨_, key, effect, hbranch, .inr ⟨_, by rw [Nat.zero_add], hd⟩⟩
  · rintro ⟨slot, key, effect, hbranch, ⟨rfl, hproblem⟩ | ⟨rest, rfl, hd⟩⟩
    · rw [Nat.zero_add]
      rcases mem_keyProblems.1 hproblem with ⟨rfl, rfl⟩ | ⟨hkey, hearlier, rfl⟩
      · exact .emptyKey hbranch
      · exact .repeatedKey hbranch hkey (by simpa using hearlier)
    · rw [Nat.zero_add]
      exact .inner (hpart slot key effect hbranch) hd

/-! ## The problems of an effect -/

theorem finds_keyProblems (slot : Nat) (seen : List String) (key : String) :
    Finds (fun place problem => place = .key slot ∧ problem ∈ keyProblems seen key)
      (keyProblems seen key) := by
  unfold keyProblems
  split
  · exact (Finds.single (.key slot) .emptyKey).congr (by simp)
  · split
    · exact (Finds.single (.key slot) (.repeatedKey key)).congr (by simp)
    · exact .nil (by simp)

theorem Defect.of_no_parts (hd : Defect effect place problem) (hparts : effect.parts = []) :
    place = .here ∧ effect.problems = [problem] := by
  cases hd with
  | emptyRace | zeroCapacity => exact ⟨rfl, rfl⟩
  | emptyKey hbranch | repeatedKey hbranch =>
    rw [List.map_eq_nil_iff.1 hparts] at hbranch
    cases hbranch
  | inner hpart =>
    rw [hparts] at hpart
    cases hpart

theorem not_defect (hparts : effect.parts = []) (hnone : effect.problems = []) :
    ¬Defect effect place problem :=
  fun hd => List.cons_ne_nil _ _ ((hd.of_no_parts hparts).2.symm.trans hnone)

theorem Finds.lone (hd : Defect effect .here problem) (hparts : effect.parts = [])
    (hproblems : effect.problems = [problem]) : Finds (Defect effect) effect.problems := by
  rw [hproblems]
  refine (Finds.single .here problem).congr fun place problem' => ?_
  constructor
  · rintro ⟨rfl, rfl⟩
    exact hd
  · intro hd'
    obtain ⟨hplace, hproblems'⟩ := hd'.of_no_parts hparts
    exact ⟨hplace, (List.singleton_inj.1 (hproblems.symm.trans hproblems')).symm⟩

mutual

/-- The problems of an effect are its defects, as they were written down. -/
theorem finds_problems : ∀ effect : Effect P W, Finds (Defect effect) effect.problems
  | .all effects => (finds_problemsOfAll 0 effects).congr fun _ _ => defect_all.symm
  | .race [] => .lone .emptyRace rfl rfl
  | .race (branch :: rest) => (finds_problemsOfRace 0 [] (branch :: rest)).congr fun _ _ =>
    (defect_race (List.cons_ne_nil branch rest)).symm
  | .channel (.fixed 0 _) => .lone .zeroCapacity rfl rfl
  | .channel (.fixed (_ + 1) _) | .channel .unbounded | .call _ _ | .callProcess _ _ | .put _
  | .take _ | .fork _ _ | .join _ | .cancel _ | .cancelled | .channelTake _ | .channelPut _ _
  | .channelClose _ | .select _ => .nil fun _ _ => not_defect rfl rfl

theorem finds_problemsOfAll : ∀ (first : Nat) (effects : List (Effect P W)),
    Finds (DefectFrom first effects) (problemsOfAll effects)
  | first, [] => .nil (by simp [DefectFrom])
  | first, effect :: rest => by
    refine (((finds_problems effect).inner first).append (finds_problemsOfAll (first + 1) rest)
      ?_).congr fun place problem => (defectFrom_cons ..).symm
    rintro _ _ _ _ ⟨_, rfl, -⟩ ⟨slot, _, _, -, rfl, -⟩
    exact .inl (by omega)

theorem finds_problemsOfRace : ∀ (first : Nat) (seen : List String)
    (branches : List (String × Effect P W)),
    Finds (BranchDefectFrom first seen branches) (problemsOfRace seen branches)
  | first, seen, [] => .nil (by simp [BranchDefectFrom])
  | first, seen, (key, effect) :: rest => by
    refine (((finds_keyProblems first seen key).append ((finds_problems effect).inner first)
      ?_).append (finds_problemsOfRace (first + 1) (key :: seen) rest) ?_).congr
      fun place problem => (branchDefectFrom_cons ..).symm
    · rintro _ _ _ _ ⟨rfl, -⟩ ⟨_, rfl, -⟩
      exact Nat.le_refl first
    · rintro _ _ _ _ (⟨rfl, -⟩ | ⟨_, rfl, -⟩) ⟨slot, _, _, -, ⟨rfl, -⟩ | ⟨_, rfl, -⟩⟩ <;>
        simp only [Place.Before] <;> omega

end

example : (race [("a", .cancelled), ("a", .all [.channel (.fixed 0 .drop)]), ("", .race [])] :
    Effect P W).problems = [.repeatedKey "a", .zeroCapacity, .emptyKey, .emptyRace] := rfl

/-! ## What is accepted -/

theorem nodup_iff_not_mem_take {α : Type} {l : List α} :
    l.Nodup ↔ ∀ (slot : Nat) (x : α), l[slot]? = some x → x ∉ l.take slot := by
  rw [List.nodup_iff_getElem?_ne_getElem?]
  constructor
  · intro hne slot x hx hm
    obtain ⟨earlier, hlt, rfl⟩ := List.mem_take_iff_getElem.1 hm
    have hslot := (List.getElem?_eq_some_iff.1 hx).1
    exact hne earlier slot (by omega) hslot (by rw [hx, List.getElem?_eq_getElem])
  · intro hnot earlier slot hlt hslot heq
    have hx := List.getElem?_eq_getElem hslot
    have hearlier : (l.take slot)[earlier]? = some l[slot] := by
      rw [List.getElem?_take_of_lt hlt, heq, hx]
    exact hnot slot _ hx (List.mem_of_getElem? hearlier)

/-- A sound effect has no defects but those of its parts. -/
theorem Sound.exists_inner (hs : effect.Sound) (hd : Defect effect place problem) :
    ∃ slot rest, place = .inner slot rest := by
  cases hd with
  | emptyRace => exact absurd rfl hs.1
  | zeroCapacity => exact absurd hs (by simp [Sound])
  | emptyKey hbranch => exact absurd rfl (hs.2.1 _ (List.mem_of_getElem? hbranch))
  | repeatedKey hbranch hkey hearlier =>
    rw [List.map_take] at hearlier
    refine absurd hearlier (nodup_iff_not_mem_take.1 hs.2.2 _ _ ?_)
    rw [List.getElem?_map, hbranch, Option.map_some]
  | inner => exact ⟨_, _, rfl⟩

theorem sound_of_no_defect (hnone : ∀ place problem, ¬Defect effect place problem) :
    effect.Sound := by
  cases effect with
  | race branches =>
    have hkeys : ∀ branch ∈ branches, branch.1 ≠ "" := by
      rintro ⟨key, effect⟩ hbranch rfl
      obtain ⟨slot, hslot⟩ := List.getElem?_of_mem hbranch
      exact hnone _ _ (.emptyKey hslot)
    refine ⟨?_, hkeys, nodup_iff_not_mem_take.2 fun slot key hkey hearlier => ?_⟩
    · rintro rfl
      exact hnone _ _ .emptyRace
    · rw [List.getElem?_map] at hkey
      obtain ⟨⟨key, effect⟩, hbranch, rfl⟩ := Option.map_eq_some_iff.1 hkey
      rw [← List.map_take] at hearlier
      exact hnone _ _ (.repeatedKey hbranch (hkeys _ (List.mem_of_getElem? hbranch)) hearlier)
  | channel policy =>
    cases policy with
    | unbounded => trivial
    | fixed capacity overflow =>
      cases capacity with
      | zero => exact absurd .zeroCapacity (hnone _ _)
      | succ n => exact Nat.succ_pos n
  | _ => trivial

/-- The well-formed effects are those without defects. -/
theorem wellFormed_iff : effect.WellFormed ↔ ∀ place problem, ¬Defect effect place problem := by
  constructor
  · intro hw place problem hd
    induction place generalizing effect with
    | inner slot rest ih =>
      obtain ⟨part, hpart, hd⟩ := hd.exists_part
      exact ih (fun inner hwithin => hw inner (.inner (List.mem_of_getElem? hpart) hwithin)) hd
    | here | key slot =>
      obtain ⟨_, _, heq⟩ := (hw effect .self).exists_inner hd
      cases heq
  · intro hnone part hwithin
    induction hwithin with
    | self => exact sound_of_no_defect hnone
    | inner hpart _ ih =>
      obtain ⟨slot, hslot⟩ := List.getElem?_of_mem hpart
      exact ih fun place problem hd => hnone _ _ (.inner hslot hd)

theorem violation?_eq (effect : Effect P W) : effect.violation? =
    if effect.problems = [] then none
    else some (.malformedEffect (effect.problems.map Problem.message)) := by
  unfold violation?
  cases effect.problems <;> rfl

theorem problems_eq_nil : effect.problems = [] ↔ effect.WellFormed := by
  obtain ⟨found, hproblems, -, hmem⟩ := finds_problems effect
  rw [wellFormed_iff, ← hproblems, List.map_eq_nil_iff, List.eq_nil_iff_forall_not_mem]
  simp only [Prod.forall, hmem]

/-- What the check has to say of an effect. -/
structure Judged (effect : Effect P W) : Prop where
  accepted : effect.violation? = none ↔ effect.WellFormed
  /-- The texts of all problems are given. -/
  rejected : ¬effect.WellFormed →
    effect.violation? = some (.malformedEffect (effect.problems.map Problem.message))
  /-- The problems are the defects, in the order of their places. -/
  reported : ∀ problems, Finds (Defect effect) problems ↔ problems = effect.problems

theorem judged (effect : Effect P W) : effect.Judged where
  accepted := by rw [violation?_eq, ← problems_eq_nil]; simp
  rejected hnot := by rw [violation?_eq, if_neg (mt problems_eq_nil.1 hnot)]
  reported problems :=
    ⟨fun hf => hf.unique (finds_problems effect), fun heq => heq ▸ finds_problems effect⟩

theorem WellFormed.of_mem_parts (hw : whole.WellFormed) (hpart : part ∈ whole.parts) :
    part.WellFormed :=
  fun inner hwithin => hw inner (.inner hpart hwithin)

end CoopTasks.Effect

namespace CoopTasks.Scheduler

variable {P R W : Type} {s s' : Scheduler P R W} {h : Host P R W} {id a : TaskId} {t : Task P R W}
variable {log : List (Scheduler P R W × Move P)} {effect : Effect P W} {process : Process P R W}

/-! ## What branches run -/

theorem Forest.old_of_sameTree (hf : Forest s) (htree : SameTree s s') (ht : s'.task? id = some t) :
    id.val < s.nextTask :=
  hf.fresh id (by rw [← htree.isLive, isLive_eq, ht]; rfl)

/-- A branch that an effect begins runs one of its parts. -/
theorem script_of_carryOut (htidy : Tidy s) (hl : s.isLive a)
    (hs : s.carryOut h a effect = .ok s') (ht : s'.task? id = some t) (hnew : s.nextTask ≤ id.val)
    (hrole : t.role.isBranch) : ∃ part ∈ effect.parts, t.process = some (.script [part]) := by
  have hforest := htidy.forest
  rcases carryOut_parts hs with hquiet | ⟨process, args, rfl⟩ | ⟨process, args, rfl⟩ | ⟨mode, rfl⟩
  · exact absurd (hforest.old_of_sameTree hquiet.tree ht) (Nat.not_lt.2 hnew)
  · obtain ⟨-, hcalled, -⟩ := task_of_spawn hforest
      ((quiet_suspend _ a _).trans (quiet_enqueueFirst _ _ _)).tree ht hnew
    rw [hcalled] at hrole
    cases hrole
  · obtain ⟨-, hforked, -⟩ := task_of_spawn hforest
      ((quiet_enqueueLast _ _ _).trans (quiet_answer _ a _)).tree ht hnew
    rw [hforked] at hrole
    cases hrole
  · by_cases hne : effect.parts = []
    · rw [hne] at ht
      have hanswer : SameTree s (s.startGroup a mode []) := (quiet_answer s a (.list [])).tree
      exact absurd (hforest.old_of_sameTree hanswer ht) (Nat.not_lt.2 hnew)
    · obtain ⟨branches, hstarted⟩ := started_startGroup htidy hl mode hne
      obtain ⟨slot, part, hpart, rfl⟩ := hstarted.newcomer
        (htidy.startGroup hl mode effect.parts).forest (by rw [isLive_eq, ht]; rfl) hnew
      obtain ⟨-, u, hu, -, -, hprocess, -⟩ := hstarted.poised slot part hpart
      obtain rfl := Option.some.inj (ht.symm.trans hu)
      exact ⟨part, List.mem_of_getElem? hpart, hprocess⟩

/-- A branch that begins runs a part of an effect that was accepted. -/
theorem script_of_dispatch (htidy : Tidy s) (hl : s.isLive a)
    (ht : (s.dispatch h a effect).task? id = some t) (hnew : s.nextTask ≤ id.val)
    (hrole : t.role.isBranch) :
    ∃ part : Effect P W, part.WellFormed ∧ t.process = some (.script [part]) := by
  have hnote := quiet_note s h a effect
  have hfresh := (htidy.dispatch (h := h) hl effect).forest.fresh id (by rw [isLive_eq, ht]; rfl)
  have hidle : (s.dispatch h a effect).nextTask ≠ s.nextTask := by omega
  rcases dispatch_cases s h a effect with
    ⟨s', haccepted, hs, heq⟩ | ⟨violation, ⟨-, heq⟩ | ⟨-, heq⟩⟩
  · obtain ⟨part, hpart, hprocess⟩ := script_of_carryOut (htidy.congr hnote.tree)
      (by rwa [hnote.tree.isLive]) hs (heq ▸ ht) (by rwa [hnote.tree.next]) hrole
    exact ⟨part, (effect.judged.accepted.1 haccepted).of_mem_parts hpart, hprocess⟩
  · exact absurd (heq ▸ nextTask_finish s h a _) hidle
  · exact absurd (heq ▸ (nextTask_finish _ h a _).trans hnote.tree.next) hidle

/-- A branch begins with a script of one well-formed effect. -/
theorem Run.branch_begins (run : Run h log s) (m : Move P) (ht : (s.move h m).task? id = some t)
    (hnew : s.nextTask ≤ id.val) (hrole : t.role.isBranch) :
    ∃ part : Effect P W, part.WellFormed ∧ t.process = some (.script [part]) := by
  have hfresh := (run.move (h := h) m).tidy.forest.fresh id (by rw [isLive_eq, ht]; rfl)
  have hidle : (s.move h m).nextTask ≠ s.nextTask := by omega
  rcases run.spawning m hidle with ⟨process, args, rfl⟩ | ⟨rfl, a, effect, hturn⟩
  · obtain ⟨-, hroot, -⟩ := task_of_spawn run.tidy.forest
      (quiet_enqueueLast (s.spawn h process args none .root).2 ⟨s.nextTask⟩ (.value .unit)).tree
      ht hnew
    rw [hroot] at hrole
    cases hrole
  · obtain ⟨u, process, input, rest, -, hu, -, -, hmove⟩ := turn_yield hturn
    have hu' : task? { s with queue := rest } a = some u := hu
    have htidy : Tidy ({ s with queue := rest } : Scheduler P R W) :=
      run.tidy.congr (.of_tasks rfl rfl)
    rw [hmove, task?_of_tasks (tasks_takeFault _)] at ht
    exact script_of_dispatch (htidy.storeProcess a _ _) (isLive_storeProcess hu' _ _) ht hnew hrole

/-- Branches run scripts of well-formed effects. -/
theorem Run.branch_within (run : Run h log s) (ht : s.task? id = some t) (hrole : t.role.isBranch)
    (hp : t.process = some process) :
    ∃ effects : List (Effect P W), process = .script effects ∧ ∀ e ∈ effects, e.WellFormed := by
  refine run.process_within (S := {process | ∃ effects : List (Effect P W),
    process = .script effects ∧ ∀ e ∈ effects, e.WellFormed}) ?_ ?_ ht hp
  · intro e he harrives u process hu hp
    obtain ⟨before, after, -, hbefore⟩ := run.of_mem e he
    obtain ⟨hl, hold⟩ := List.mem_filter.1 harrives
    have hl := (mem_keys_iff _ id).1 hl
    have hnew : e.1.nextTask ≤ id.val := by
      by_contra hlt
      simp [(later_move e.1 h e.2).isLive (Nat.not_le.1 hlt) hl] at hold
    obtain ⟨u', hu', honward⟩ := (run.later e he).onward id t ht
      ((hbefore.move (h := h) e.2).tidy.forest.fresh id hl)
    obtain rfl := Option.some.inj (hu.symm.trans hu')
    obtain ⟨part, hpart, hprocess⟩ := hbefore.branch_begins e.2 hu hnew (honward.role ▸ hrole)
    obtain rfl := Option.some.inj (hp.symm.trans hprocess)
    exact ⟨[part], rfl, by simpa using hpart⟩
  · rintro _ ⟨effects, rfl, hall⟩ input world effect hyield
    cases effects with
    | nil => cases input <;> cases hyield
    | cons e rest =>
      cases input with
      | error error => cases hyield
      | value v => exact ⟨rest, rfl, fun e' he' => hall e' (List.mem_cons_of_mem _ he')⟩

/-- A branch yields a well-formed effect. -/
theorem Run.branch_yields (run : Run h log s) (ht : s.task? id = some t) (hrole : t.role.isBranch)
    (hturn : s.turn? h = some (id, .yield effect)) : effect.WellFormed := by
  obtain ⟨u, process, input, rest, -, hu, hp, hyield, -⟩ := turn_yield hturn
  obtain rfl := Option.some.inj (ht.symm.trans hu)
  obtain ⟨effects, rfl, hall⟩ := run.branch_within ht hrole hp
  cases effects with
  | nil => cases input <;> cases hyield
  | cons e rest =>
    cases input with
    | error error => cases hyield
    | value v =>
      cases hyield
      exact hall effect List.mem_cons_self

/-- A task that yields a well-formed effect does not end for a malformed one. -/
theorem ending?_of_wellFormed (hturn : s.turn? h = some (id, .yield effect))
    (hw : effect.WellFormed) (problems : List String) :
    s.ending? h .step ≠ some (id, .error (.protocol (.malformedEffect problems))) := by
  obtain ⟨q, -, -, -, -, hending⟩ := ending?_of_yield hturn
  rw [hending, effect.judged.accepted.2 hw]
  cases hs : q.carryOut h id effect with
  | ok s' => simp
  | error violation =>
    rcases unknown_of_carryOut hs with ⟨u, -, -, rfl⟩ | ⟨channel, event, -, -, rfl⟩ <;> simp

/-- The check accepts the well-formed effects and says what is wrong with the others, each defect
once and in order. No branch yields an effect that it does not accept, or ends for one. -/
theorem Run.validated (run : Run h log s) :
    (∀ effect : Effect P W, effect.Judged) ∧
    ∀ id t g slot effect, s.task? id = some t → t.role = .branch g slot →
      s.turn? h = some (id, .yield effect) → effect.violation? = none ∧ ∀ problems,
        s.ending? h .step ≠ some (id, .error (.protocol (.malformedEffect problems))) := by
  refine ⟨Effect.judged, fun id t g slot effect ht hrole hturn => ?_⟩
  have hw := run.branch_yields ht (by rw [hrole]; rfl) hturn
  exact ⟨effect.judged.accepted.2 hw, ending?_of_wellFormed hturn hw⟩

/-- The branch of the inner race yields what it was given. -/
theorem validated_nested : (∀ effect : Effect Chore Unit, effect.Judged) ∧
    ∃ t, nested.task? ⟨4⟩ = some t ∧ t.role = .branch ⟨2⟩ 0 ∧
      nested.turn? household = some (⟨4⟩, .yield (.fork .helper [])) ∧
      (.fork .helper [] : Effect Chore Unit).violation? = none := by
  obtain ⟨hjudged, hbranches⟩ := nested_run.validated
  exact ⟨hjudged, _, rfl, rfl, rfl, (hbranches ⟨4⟩ _ ⟨2⟩ 0 _ rfl rfl rfl).1⟩

end CoopTasks.Scheduler

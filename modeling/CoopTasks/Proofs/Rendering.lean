import CoopTasks.Snapshot.Tree
import Mathlib.Data.List.Chain
import Mathlib.Data.List.Perm.Subperm
import Mathlib.Logic.Relation

/-!
# Trees that can be shown

The line of a task says how deep it stands, by two spaces for each level, and then what is known of
it (`Describes`). A snapshot that was stored may say anything of parents and children. Its tree is
shown by going from each task to its children for as long as there are any, without a bound on the
way (`Renders`). The bound that `tree?` puts on the way does no harm: it gives a text whenever the
way has an end, and that text. The way has an end unless a task that is shown leads back to itself.
All else that can be wrong with identifiers does no harm either.
-/

namespace CoopTasks.Snapshot

open Relation

variable {s : Snapshot} {a b t u root : TaskView} {ts path : List TaskView} {lines : List String}
variable {depth depth' fuel : Nat} {text : String}

/-! ## Lines -/

/-- What is known of a task: its number, its name and, in brackets, its status with what it waits
for. A mark at the end tells that it is being cancelled. -/
def caption (t : TaskView) : String :=
  let state := match t.waitingOn with
    | none => t.status.name
    | some wait => t.status.name ++ ": " ++ wait
  let mark := if t.cancelling then " (cancelling)" else ""
  "task-" ++ t.id.val.repr ++ " " ++ t.name ++ " [" ++ state ++ "]" ++ mark

/-- A text begins with two spaces for each level at which a task stands, and no more. After them it
says what is known of the task. -/
structure Describes (depth : Nat) (t : TaskView) (text : String) : Prop where
  indent : text.toList.takeWhile (· = ' ') = List.replicate (2 * depth) ' '
  content : text.toList.dropWhile (· = ' ') = (caption t).toList

theorem line_eq (depth : Nat) (t : TaskView) :
    line depth t = String.ofList (List.replicate (2 * depth) ' ') ++ caption t := by
  have hid : toString t.id = "task-" ++ t.id.val.repr := rfl
  have hstatus : toString t.status = t.status.name := rfl
  have htext : ∀ text : String, toString text = text := fun _ => rfl
  unfold line caption
  cases t.waitingOn with
  | none =>
    simp only [hid, hstatus, htext, Option.elim_none, String.append_assoc, String.empty_append]
  | some wait => simp only [hid, hstatus, htext, Option.elim_some, String.append_assoc]

theorem toList_caption (t : TaskView) : ∃ rest, (caption t).toList =
    't' :: 'a' :: 's' :: 'k' :: '-' :: (Nat.toDigits 10 t.id.val ++ ' ' :: rest) := by
  unfold caption
  simp only [String.append_assoc, String.toList_append, Nat.toList_repr]
  exact ⟨_, rfl⟩

theorem describes_line (depth : Nat) (t : TaskView) : Describes depth t (line depth t) := by
  have hspace : ∀ c ∈ List.replicate (2 * depth) ' ', decide (c = ' ') = true :=
    fun c hc => decide_eq_true (List.eq_of_mem_replicate hc)
  obtain ⟨rest, hcaption⟩ := toList_caption t
  have hline : (line depth t).toList = List.replicate (2 * depth) ' ' ++ (caption t).toList := by
    rw [line_eq, String.toList_append, String.toList_ofList]
  refine ⟨?_, ?_⟩
  · rw [hline, List.takeWhile_append_of_pos hspace, hcaption]
    simp
  · rw [hline, List.dropWhile_append_of_pos hspace, hcaption]
    simp

/-- A text describes one task at most, and at one depth. -/
theorem Describes.unique (hd : Describes depth t text) (hd' : Describes depth' u text) :
    depth = depth' ∧ t.id = u.id := by
  have hdepth := congrArg List.length (hd.indent.symm.trans hd'.indent)
  simp only [List.length_replicate] at hdepth
  obtain ⟨rest, hcaption⟩ := toList_caption t
  obtain ⟨rest', hcaption'⟩ := toList_caption u
  have hsame := hcaption.symm.trans ((hd.content.symm.trans hd'.content).trans hcaption')
  simp only [List.cons.injEq, true_and] at hsame
  -- the number ends where the first space stands
  have hdigits : ∀ n rest,
      (Nat.toDigits 10 n ++ ' ' :: rest).takeWhile Char.isDigit = Nat.toDigits 10 n := by
    intro n rest
    rw [List.takeWhile_append_of_pos fun c hc =>
      Nat.isDigit_of_mem_toDigits (by decide) (by decide) hc]
    simp
  have hnumber := congrArg (List.takeWhile Char.isDigit) hsame
  rw [hdigits, hdigits] at hnumber
  have hval : t.id.val = u.id.val := by
    rw [← Nat.ofDigitChars_toDigits (b := 10) (n := t.id.val) (by decide) (by decide), hnumber,
      Nat.ofDigitChars_toDigits (by decide) (by decide)]
  exact ⟨by omega, congrArg TaskId.mk hval⟩

example : line 1 ⟨⟨2⟩, "watch_every(X, worker)", some ⟨1⟩, [], .waiting, some "take", true, ⟨0, 0⟩⟩ =
    "  task-2 watch_every(X, worker) [Waiting: take] (cancelling)" := by decide

/-! ## Going down -/

/-- The tasks that are shown directly below a task. -/
def below (s : Snapshot) (t : TaskView) : List TaskView := t.children.filterMap s.task?

/-- A task is shown directly below another. -/
def Leads (s : Snapshot) (a b : TaskView) : Prop := b ∈ s.below a

/-- What tasks at some depth are shown as, one after the other, each followed by those below it. -/
inductive Renders (s : Snapshot) : Nat → List TaskView → List String → Prop where
  | nil {depth : Nat} : Renders s depth [] []
  | cons {depth : Nat} {t : TaskView} {rest : List TaskView} {inner others : List String} :
    Renders s (depth + 1) (s.below t) inner → Renders s depth rest others →
      Renders s depth (t :: rest) (line depth t :: (inner ++ others))

theorem Renders.unique {lines' : List String} (hr : s.Renders depth ts lines)
    (hr' : s.Renders depth ts lines') : lines = lines' := by
  induction hr generalizing lines' with
  | nil => cases hr'; rfl
  | cons _ _ ihinner ihothers =>
    cases hr' with
    | cons hinner hothers => rw [ihinner hinner, ihothers hothers]

/-! ## Within the bound -/

theorem mapM_cons_eq_some {α β : Type} {f : α → Option β} {x : α} {xs : List α} {ys : List β} :
    (x :: xs).mapM f = some ys ↔ ∃ z zs, f x = some z ∧ xs.mapM f = some zs ∧ ys = z :: zs := by
  simp [List.mapM_cons, Option.bind_eq_some_iff, @eq_comm _ ys]

theorem mapM_eq_none {α β : Type} {f : α → Option β} {xs : List α} (hnone : xs.mapM f = none) :
    ∃ x ∈ xs, f x = none := by
  induction xs with
  | nil => simp at hnone
  | cons x xs ih =>
    cases hx : f x with
    | none => exact ⟨x, List.mem_cons_self, hx⟩
    | some z =>
      have hrest : xs.mapM f = none := by
        rw [Option.eq_none_iff_forall_ne_some]
        intro zs hzs
        have hall : (x :: xs).mapM f = some (z :: zs) := mapM_cons_eq_some.2 ⟨z, zs, hx, hzs, rfl⟩
        simp [hnone] at hall
      obtain ⟨y, hy, hnone⟩ := ih hrest
      exact ⟨y, List.mem_cons_of_mem _ hy, hnone⟩

theorem linesBelow_succ : s.linesBelow (fuel + 1) depth t =
    ((s.below t).mapM (s.linesBelow fuel (depth + 1))).map fun trees =>
      line depth t :: trees.flatten := by
  rw [linesBelow, below]
  cases (t.children.filterMap s.task?).mapM (s.linesBelow fuel (depth + 1)) <;> rfl

/-- What is shown within the bound is shown. -/
theorem renders_of_mapM {trees : List (List String)}
    (htrees : ts.mapM (s.linesBelow fuel depth) = some trees) :
    s.Renders depth ts trees.flatten := by
  -- by induction on the bound, and at each level on the tasks that stand there
  induction fuel generalizing depth ts trees with
  | zero =>
    cases ts with
    | nil => cases htrees; exact .nil
    | cons t rest =>
      obtain ⟨_, _, ht, -⟩ := mapM_cons_eq_some.1 htrees
      cases ht
  | succ fuel ih =>
    induction ts generalizing trees with
    | nil => cases htrees; exact .nil
    | cons t rest ihrest =>
      obtain ⟨_, others, ht, hothers, rfl⟩ := mapM_cons_eq_some.1 htrees
      rw [linesBelow_succ, Option.map_eq_some_iff] at ht
      obtain ⟨inner, hinner, rfl⟩ := ht
      rw [List.flatten_cons]
      exact .cons (ih hinner) (ihrest hothers)

/-- Where the bound does not allow a text, there is a path as long as the bound. -/
theorem path_of_linesBelow (hnone : s.linesBelow fuel depth t = none) :
    ∃ path : List TaskView, path.length = fuel ∧ (t :: path).IsChain s.Leads := by
  induction fuel generalizing depth t with
  | zero => exact ⟨[], rfl, .singleton t⟩
  | succ fuel ih =>
    rw [linesBelow_succ, Option.map_eq_none_iff] at hnone
    obtain ⟨child, hchild, hnone⟩ := mapM_eq_none hnone
    obtain ⟨path, hlength, hpath⟩ := ih hnone
    exact ⟨child :: path, by rw [List.length_cons, hlength], .cons_cons hchild hpath⟩

/-! ## Paths -/

theorem mem_tasks_of_task? {id : TaskId} (ht : s.task? id = some t) : t ∈ s.tasks :=
  List.mem_of_find?_eq_some ht

theorem Leads.mem_tasks (hl : s.Leads a b) : b ∈ s.tasks := by
  obtain ⟨id, -, hid⟩ := List.mem_filterMap.1 hl
  exact mem_tasks_of_task? hid

theorem mem_tasks_of_roots (hroot : root ∈ s.roots) : root ∈ s.tasks := List.mem_of_mem_filter hroot

/-- No task that is shown below a task leads back to itself. -/
def Unfolds (s : Snapshot) (t : TaskView) : Prop :=
  ∀ u, ReflTransGen s.Leads t u → ¬TransGen s.Leads u u

/-- A path that does not come back is no longer than the list of tasks. -/
theorem Unfolds.length_le (hu : s.Unfolds t) (ht : t ∈ s.tasks)
    (hpath : (t :: path).IsChain s.Leads) : (t :: path).length ≤ s.tasks.length := by
  have hreach : (t :: path).Pairwise (TransGen s.Leads) :=
    List.isChain_iff_pairwise.1 (hpath.imp fun _ _ => .single)
  have hbelow : ∀ u ∈ t :: path, ReflTransGen s.Leads t u := by
    intro u hm
    rcases List.mem_cons.1 hm with rfl | hm
    · exact .refl
    · exact ((List.pairwise_cons.1 hreach).1 u hm).to_reflTransGen
  have hnodup : (t :: path).Nodup := by
    refine hreach.imp_of_mem fun ha _ hab heq => ?_
    subst heq
    exact hu _ (hbelow _ ha) hab
  have hsub : t :: path ⊆ s.tasks := by
    intro u hm
    rcases ReflTransGen.cases_tail (hbelow u hm) with rfl | ⟨_, -, hl⟩
    · exact ht
    · exact hl.mem_tasks
  exact (hnodup.subperm hsub).length_le

/-- Following the children from what is shown comes to an end. -/
theorem Renders.acc (hr : s.Renders depth ts lines) : ∀ t ∈ ts, Acc (fun b a => s.Leads a b) t := by
  induction hr with
  | nil => simp
  | cons _ _ ihinner ihothers =>
    intro u hu
    rcases List.mem_cons.1 hu with rfl | hu
    · exact ⟨_, ihinner⟩
    · exact ihothers u hu

theorem Unfolds.of_acc (ha : Acc (fun b a => s.Leads a b) t) : s.Unfolds t := by
  induction ha with
  | intro t _ ih =>
    intro u htu huu
    rcases htu.cases_head with rfl | ⟨child, hchild, hcu⟩
    · -- the first task of the circle lies on it as well
      obtain ⟨child, hchild, hback⟩ := TransGen.head'_iff.1 huu
      exact ih child hchild child .refl (.tail' hback hchild)
    · exact ih child hchild u hcu huu

/-! ## The tree of a snapshot -/

theorem renders_of_treeLines? (hlines : s.treeLines? = some lines) :
    s.Renders 0 s.roots lines := by
  obtain ⟨trees, htrees, heq⟩ := Option.bind_eq_some_iff.1 hlines
  cases heq
  exact renders_of_mapM htrees

/-- Where no way leads back, there are lines: without them there is a path that is too long for its
tasks to be all different. -/
theorem exists_treeLines (hu : ∀ root ∈ s.roots, s.Unfolds root) :
    ∃ lines, s.treeLines? = some lines := by
  cases htrees : s.roots.mapM (s.linesBelow s.tasks.length 0) with
  | some trees => exact ⟨trees.flatten, by simp [treeLines?, htrees]⟩
  | none =>
    obtain ⟨root, hroot, hnone⟩ := mapM_eq_none htrees
    obtain ⟨path, hlength, hpath⟩ := path_of_linesBelow hnone
    have hle := (hu root hroot).length_le (mem_tasks_of_roots hroot) hpath
    rw [List.length_cons, hlength] at hle
    omega

theorem treeLines?_eq_some : s.treeLines? = some lines ↔ s.Renders 0 s.roots lines := by
  refine ⟨renders_of_treeLines?, fun hr => ?_⟩
  obtain ⟨lines', hlines⟩ := exists_treeLines fun root hroot => .of_acc (hr.acc root hroot)
  rw [hlines, (renders_of_treeLines? hlines).unique hr]

theorem tree?_eq_some {text : String} : s.tree? = some text ↔
    ∃ lines, s.Renders 0 s.roots lines ∧ text = String.join (lines.map (· ++ "\n")) := by
  simp [tree?, Option.map_eq_some_iff, treeLines?_eq_some, @eq_comm _ text]

/-- The tree of a snapshot that was read is shown unless a task below a root leads back to itself,
whatever else its identifiers say, and then it is what going from task to task says. -/
theorem tree_shown (s : Snapshot) :
    (accept (some s) = .ok s ↔ s.version = currentVersion) ∧
    ((∃ text, s.tree? = some text) ↔
      ∀ root ∈ s.roots, ∀ t, ReflTransGen s.Leads root t → ¬TransGen s.Leads t t) ∧
    ∀ text, s.tree? = some text ↔
      ∃ lines, s.Renders 0 s.roots lines ∧ text = String.join (lines.map (· ++ "\n")) := by
  refine ⟨?_, ⟨?_, fun hu => ?_⟩, fun text => tree?_eq_some⟩
  · by_cases hversion : s.version = currentVersion <;> simp [accept, hversion]
  · rintro ⟨text, htext⟩ root hroot
    obtain ⟨lines, hr, -⟩ := tree?_eq_some.1 htext
    exact Unfolds.of_acc (hr.acc root hroot)
  · obtain ⟨lines, hlines⟩ := exists_treeLines hu
    exact ⟨_, by rw [tree?, hlines, Option.map_some]⟩

/-- A root that names itself as its child. -/
def looped : Snapshot where
  version := currentVersion
  id := ⟨0⟩
  takenAt := ⟨0, 0⟩
  scheduler := ⟨0⟩
  clock := 0
  tasks := [⟨⟨1⟩, "a", none, [⟨1⟩], .running, none, false, ⟨0, 0⟩⟩]
  channels := []
  pendingTakers := 0
  pendingOperations := 0

/-- Not every snapshot that is accepted has a tree that can be shown. -/
theorem not_always_shown :
    ¬∀ s : Snapshot, accept (some s) = .ok s → ∃ text, s.tree? = some text := by
  intro hall
  obtain ⟨text, htext⟩ := hall looped rfl
  have hnone : looped.tree? = none := rfl
  rw [hnone] at htext
  cases htext

end CoopTasks.Snapshot

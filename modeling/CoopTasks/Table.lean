/-!
# Finite tables

A finite map from keys to values, kept as the list of its entries in the order in which the keys
were first inserted. Keys handed out in increasing order are therefore listed in increasing order.
The lemmas say how each operation changes what `find?` answers.
-/

namespace CoopTasks

structure Table (K V : Type) where
  entries : List (K × V)

namespace Table

variable {K V : Type} [DecidableEq K]

def empty : Table K V := ⟨[]⟩

def size (t : Table K V) : Nat := t.entries.length

def keys (t : Table K V) : List K := t.entries.map Prod.fst

def find? (t : Table K V) (k : K) : Option V :=
  (t.entries.find? fun entry => entry.1 = k).map Prod.snd

def contains (t : Table K V) (k : K) : Bool := (t.find? k).isSome

/-- Changes the value of a key that is present. -/
def modify (t : Table K V) (k : K) (f : V → V) : Table K V :=
  ⟨t.entries.map fun entry => if entry.1 = k then (k, f entry.2) else entry⟩

/-- A new key goes to the end; a key that is present keeps its place. -/
def insert (t : Table K V) (k : K) (v : V) : Table K V :=
  if t.contains k then t.modify k fun _ => v else ⟨t.entries ++ [(k, v)]⟩

def erase (t : Table K V) (k : K) : Table K V :=
  ⟨t.entries.filter fun entry => entry.1 ≠ k⟩

@[simp] theorem find?_empty (k : K) : (empty : Table K V).find? k = none := rfl

@[simp] theorem find?_erase (t : Table K V) (k j : K) :
    (t.erase k).find? j = if j = k then none else t.find? j := by
  unfold find? erase
  induction t.entries with
  | nil => simp
  | cons entry rest ih =>
    by_cases hk : entry.1 = k <;> by_cases hj : entry.1 = j <;> by_cases h : j = k <;>
      simp_all

@[simp] theorem find?_modify (t : Table K V) (k j : K) (f : V → V) :
    (t.modify k f).find? j = if j = k then (t.find? j).map f else t.find? j := by
  unfold find? modify
  induction t.entries with
  | nil => simp
  | cons entry rest ih =>
    by_cases hk : entry.1 = k <;> by_cases hj : entry.1 = j <;> by_cases h : j = k <;>
      simp_all

@[simp] theorem find?_insert (t : Table K V) (k j : K) (v : V) :
    (t.insert k v).find? j = if j = k then some v else t.find? j := by
  unfold insert
  by_cases hc : t.contains k
  · obtain ⟨w, hw⟩ := Option.isSome_iff_exists.1 hc
    by_cases h : j = k
    · subst h; simp [hc, hw]
    · simp [hc, h]
  · have hn : t.find? k = none := by simpa [contains] using hc
    by_cases h : j = k
    · subst h
      simp only [find?, Option.map_eq_none_iff] at hn
      simp [hc, find?, List.find?_append, hn]
    · simp [hc, find?, List.find?_append, h, Ne.symm h]

theorem mem_keys (t : Table K V) (k : K) : k ∈ t.keys ↔ (t.find? k).isSome := by
  simp [keys, find?]

theorem size_modify (t : Table K V) (k : K) (f : V → V) : (t.modify k f).size = t.size := by
  simp [size, modify]

theorem keys_modify (t : Table K V) (k : K) (f : V → V) : (t.modify k f).keys = t.keys := by
  simp only [keys, modify, List.map_map]
  apply List.map_congr_left
  intro entry _
  by_cases h : entry.1 = k <;> simp [h]

theorem modify_modify (t : Table K V) (k : K) (f g : V → V) :
    (t.modify k f).modify k g = t.modify k fun v => g (f v) := by
  simp only [modify, List.map_map, mk.injEq]
  apply List.map_congr_left
  intro entry _
  by_cases h : entry.1 = k <;> simp [h]

theorem size_erase_lt (t : Table K V) {k : K} (h : (t.find? k).isSome) :
    (t.erase k).size < t.size := by
  obtain ⟨v, hv⟩ := (mem_keys t k).2 h |> List.mem_map.1
  exact List.length_filter_lt_length_iff_exists.2 ⟨v, hv.1, by simp [hv.2]⟩

theorem keys_insert (t : Table K V) {k : K} (hk : k ∉ t.keys) (v : V) :
    (t.insert k v).keys = t.keys ++ [k] := by
  have hc : t.contains k = false := by
    simpa [mem_keys, contains] using hk
  simp [insert, hc, keys]

theorem keys_erase (t : Table K V) (k : K) : (t.erase k).keys = t.keys.filter (· ≠ k) := by
  simp [keys, erase, List.filter_map, Function.comp_def]

theorem find?_of_mem {t : Table K V} (hnodup : t.keys.Nodup) {k : K} {v : V}
    (hm : (k, v) ∈ t.entries) : t.find? k = some v := by
  obtain ⟨entries⟩ := t
  induction entries with
  | nil => cases hm
  | cons entry rest ih =>
    obtain ⟨hnot, hnodup⟩ := List.nodup_cons.1 hnodup
    rcases List.mem_cons.1 hm with rfl | hm
    · simp [find?]
    · have hne : entry.1 ≠ k := by
        intro heq
        exact hnot (heq ▸ List.mem_map_of_mem (f := Prod.fst) hm)
      simpa [find?, hne] using ih hnodup hm

theorem mem_of_find? {t : Table K V} {k : K} {v : V} (hfind : t.find? k = some v) :
    (k, v) ∈ t.entries := by
  obtain ⟨entry, hentry, rfl⟩ := Option.map_eq_some_iff.1 hfind
  obtain rfl : entry.1 = k := by simpa using List.find?_some hentry
  exact List.mem_of_find?_eq_some hentry

/-- A table into which a key is put has no entries but the old ones and that one. -/
theorem mem_insert {t : Table K V} {k : K} {v : V} {entry : K × V}
    (hm : entry ∈ (t.insert k v).entries) : entry ∈ t.entries ∨ entry = (k, v) := by
  unfold insert at hm
  split at hm
  · obtain ⟨old, hold, rfl⟩ := List.mem_map.1 hm
    by_cases hk : old.1 = k
    · exact Or.inr (if_pos hk)
    · exact Or.inl (by rwa [if_neg hk])
  · rcases List.mem_append.1 hm with hm | hm
    · exact Or.inl hm
    · exact Or.inr (List.mem_singleton.1 hm)

/-- The keys are listed in the order of their numbers, and the next number is free. -/
structure Numbered (number : K → Nat) (next : Nat) (t : Table K V) : Prop where
  sorted : t.keys.Pairwise fun a b => number a < number b
  fresh : ∀ k ∈ t.keys, number k < next

variable {number : K → Nat} {next : Nat} {t t' : Table K V}

omit [DecidableEq K] in
theorem Numbered.nodup (ht : t.Numbered number next) : t.keys.Nodup :=
  ht.sorted.imp fun hlt heq => Nat.ne_of_lt hlt (congrArg number heq)

omit [DecidableEq K] in
theorem Numbered.of_sublist (ht : t.Numbered number next) (hs : t'.keys.Sublist t.keys) :
    t'.Numbered number next :=
  ⟨ht.sorted.sublist hs, fun k hk => ht.fresh k (hs.subset hk)⟩

theorem Numbered.insert (ht : t.Numbered number next) {k : K} (hk : number k = next) (v : V) :
    (t.insert k v).Numbered number (next + 1) := by
  have hnew : k ∉ t.keys := fun hm => Nat.ne_of_lt (ht.fresh k hm) hk
  refine ⟨?_, fun j hj => ?_⟩
  · rw [keys_insert t hnew, List.pairwise_append]
    refine ⟨ht.sorted, List.pairwise_singleton _ _, fun a ha b hb => ?_⟩
    rw [List.mem_singleton.1 hb, hk]
    exact ht.fresh a ha
  · rw [keys_insert t hnew, List.mem_append, List.mem_singleton] at hj
    rcases hj with hj | rfl
    · exact Nat.lt_succ_of_lt (ht.fresh j hj)
    · exact hk ▸ Nat.lt_succ_self _

end Table

end CoopTasks

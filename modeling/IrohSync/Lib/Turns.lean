import Mathlib.Data.List.Basic

/-!
# Tasks that take turns

The running tasks of a concurrent program as a list.  A step takes one task, and
puts what is left of it at the end, so the list shows in which order the tasks
made their last step.  Where every task is at some stage of its program, the
tasks at one stage stand in the order in which they came to it.

Main results:

- Theorem {lit}`Turns.filterMap_advance`: a step of a task that is not at a stage
  leaves those at the stage as they are.
- Theorem {lit}`Turns.filterMap_advance_first`: a step of the task that came to a
  stage first removes the first of them.
- Theorems {lit}`Turns.countP_set` and {lit}`Turns.filterMap_set_perm`: the same for tasks
  that keep their places, where their order is left open.
-/

namespace Turns

variable {τ α : Type}

/-- The tasks after a step of the one at a place, which goes on with its rest. -/
def advance (tasks : List τ) (i : Nat) (rest : Option τ) : List τ :=
  tasks.eraseIdx i ++ rest.toList

variable {tasks : List τ} {i : Nat} {t : τ} {rest : Option τ}

theorem eq_take_cons_drop (ht : tasks[i]? = some t) :
    tasks = tasks.take i ++ t :: tasks.drop (i + 1) := by
  rcases List.getElem?_eq_some_iff.mp ht with ⟨hi, rfl⟩
  rw [List.getElem_cons_drop, List.take_append_drop]

/-- A task after a step was there before or is the rest of the one that moved. -/
theorem mem_advance {u : τ} (hu : u ∈ advance tasks i rest) :
    u ∈ tasks ∨ rest = some u := by
  rcases List.mem_append.mp hu with hold | hrest
  · exact Or.inl (List.mem_of_mem_eraseIdx hold)
  · exact Or.inr (Option.mem_toList.mp hrest)

/-- All tasks but the one that moves are still there. -/
theorem mem_eraseIdx_of_ne {u : τ} (ht : tasks[i]? = some t) (hu : u ∈ tasks) (hne : u ≠ t) :
    u ∈ tasks.eraseIdx i := by
  rw [eq_take_cons_drop ht] at hu
  rw [List.eraseIdx_eq_take_drop_succ]
  rcases List.mem_append.mp hu with hbefore | hafter
  · exact List.mem_append_left _ hbefore
  · rcases List.mem_cons.mp hafter with hself | hlater
    · contradiction
    · exact List.mem_append_right _ hlater

theorem mem_set_of_ne {u v : τ} (ht : tasks[i]? = some t) (hu : u ∈ tasks) (hne : u ≠ t) :
    u ∈ tasks.set i v := by
  rcases List.getElem?_of_mem hu with ⟨j, hj⟩
  have hij : i ≠ j := by
    rintro rfl
    exact hne (Option.some.inj (hj.symm.trans ht))
  refine List.mem_of_getElem? (i := j) ?_
  rw [List.getElem?_set_ne hij, hj]

theorem mem_advance_of_ne {u : τ} (ht : tasks[i]? = some t) (hu : u ∈ tasks) (hne : u ≠ t) :
    u ∈ advance tasks i rest :=
  List.mem_append_left _ (mem_eraseIdx_of_ne ht hu hne)

/-- What is left of a task is there. -/
theorem mem_advance_rest {u : τ} : u ∈ advance tasks i (some u) :=
  List.mem_append_right _ (List.mem_singleton.mpr rfl)

/-- A step of a task that is not at a stage. -/
theorem filterMap_advance (stage : τ → Option α) (ht : tasks[i]? = some t)
    (hstage : stage t = none) :
    (advance tasks i rest).filterMap stage =
      tasks.filterMap stage ++ (rest.bind stage).toList := by
  have hrest : rest.toList.filterMap stage = (rest.bind stage).toList := by
    cases rest with
    | none => rfl
    | some u => cases hu : stage u <;> simp [hu]
  rw [advance, List.filterMap_append, hrest, List.eraseIdx_eq_take_drop_succ]
  conv_rhs => rw [eq_take_cons_drop ht]
  rw [List.filterMap_append, List.filterMap_append, List.filterMap_cons_none hstage]

/-- A step of the task that came to a stage first. -/
theorem filterMap_advance_first (stage : τ → Option α) (rest : Option τ) {x : α}
    (ht : tasks[i]? = some t) (hstage : stage t = some x)
    (hfirst : ∀ u ∈ tasks.take i, stage u = none) (hrest : rest.bind stage = none) :
    x :: (advance tasks i rest).filterMap stage = tasks.filterMap stage := by
  have hnone : rest.toList.filterMap stage = [] := by
    cases rest with
    | none => rfl
    | some u => simpa using hrest
  have hbefore : (tasks.take i).filterMap stage = [] := by
    rw [List.filterMap_eq_nil_iff]
    exact hfirst
  rw [advance, List.filterMap_append, hnone, List.append_nil, List.eraseIdx_eq_take_drop_succ]
  conv_rhs => rw [eq_take_cons_drop ht]
  rw [List.filterMap_append, List.filterMap_append, List.filterMap_cons_some hstage, hbefore]
  rfl

/-- How many tasks are at a stage after one of them went on in its place. -/
theorem countP_set (p : τ → Bool) {u : τ} (ht : tasks[i]? = some t) :
    (tasks.set i u).countP p + (p t).toNat = tasks.countP p + (p u).toNat := by
  rcases List.getElem?_eq_some_iff.mp ht with ⟨hi, rfl⟩
  have hpos : p tasks[i] = true → 0 < tasks.countP p := fun hp =>
    List.countP_pos_iff.mpr ⟨_, List.getElem_mem hi, hp⟩
  rw [List.countP_set hi]
  cases hbefore : p tasks[i] with
  | false => cases p u <;> simp
  | true =>
      have hsome := hpos hbefore
      cases p u <;> simp only [Bool.toNat_true, Bool.toNat_false, if_true, Bool.false_eq_true,
        if_false] <;> omega

/-- The tasks at a stage after one of them went on in its place. -/
theorem filterMap_set_perm (stage : τ → Option α) (ht : tasks[i]? = some t) (u : τ) :
    ((stage u).toList ++ tasks.filterMap stage).Perm
      ((stage t).toList ++ (tasks.set i u).filterMap stage) := by
  have hcons : ∀ v, (v :: tasks.drop (i + 1)).filterMap stage =
      (stage v).toList ++ (tasks.drop (i + 1)).filterMap stage := by
    intro v
    cases hv : stage v <;> simp [hv]
  have hi := (List.getElem?_eq_some_iff.mp ht).1
  rw [List.set_eq_take_append_cons_drop, if_pos hi]
  conv_lhs => rw [eq_take_cons_drop ht]
  rw [List.filterMap_append, List.filterMap_append, hcons, hcons]
  -- what the task was and what it is now change places
  refine (List.perm_append_comm_assoc _ _ _).trans ?_
  refine ((List.perm_append_comm_assoc _ _ _).append_left _).trans ?_
  exact List.perm_append_comm_assoc _ _ _

/-- The tasks at a stage before one of them left. -/
theorem filterMap_eraseIdx_perm (stage : τ → Option α) (ht : tasks[i]? = some t) :
    (tasks.filterMap stage).Perm ((stage t).toList ++ (tasks.eraseIdx i).filterMap stage) := by
  have hcons : (t :: tasks.drop (i + 1)).filterMap stage =
      (stage t).toList ++ (tasks.drop (i + 1)).filterMap stage := by
    cases hstage : stage t <;> simp [hstage]
  rw [List.eraseIdx_eq_take_drop_succ]
  conv_lhs => rw [eq_take_cons_drop ht]
  rw [List.filterMap_append, List.filterMap_append, hcons]
  exact List.perm_append_comm_assoc _ _ _

end Turns

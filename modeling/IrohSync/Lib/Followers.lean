import Mathlib.Data.List.Infix
import Mathlib.Logic.Function.Basic
import Mathlib.Logic.Relation

/-!
# Followers of a log

Nodes with logs that only grow at their ends.  A node may follow another one, and its
log is then a prefix of the log it follows.

Main results:

- Theorem {lit}`Followed.update`: a node may take over what the node that it follows has.
- Theorem {lit}`Followed.isPrefix`: the logs along a chain of followers.
- Theorem {lit}`Followed.comparable`: of two nodes that draw on one node neither has
  anything that contradicts the other.
-/

namespace Followers

variable {ι α : Type}

/-- The log of each node is a prefix of the log that it follows. -/
def Followed (upstream : ι → Option ι) (log : ι → List α) : Prop :=
  ∀ p u, upstream p = some u → log p <+: log u

/-- A node is another one, or follows one that draws on it. -/
def DrawsOn (upstream : ι → Option ι) : ι → ι → Prop :=
  Relation.ReflTransGen fun p u => upstream p = some u

variable {upstream : ι → Option ι} {log : ι → List α}

/-- Empty logs follow each other. -/
theorem followed_nil : Followed upstream fun _ : ι => ([] : List α) :=
  fun _ _ _ => List.prefix_refl _

/-- A log may grow as far as the log that it follows reaches. -/
theorem Followed.update [DecidableEq ι] (h : Followed upstream log) {p : ι} {longer : List α}
    (hgrown : log p <+: longer) (hreach : ∀ u, upstream p = some u → longer <+: log u) :
    Followed upstream (Function.update log p longer) := by
  intro q v hfollows
  by_cases hq : q = p
  · subst q
    rw [Function.update_self]
    by_cases hv : v = p
    · subst v
      rw [Function.update_self]
    · rw [Function.update_of_ne hv]
      exact hreach v hfollows
  · rw [Function.update_of_ne hq]
    by_cases hv : v = p
    · subst v
      rw [Function.update_self]
      exact (h q p hfollows).trans hgrown
    · rw [Function.update_of_ne hv]
      exact h q v hfollows

/-- A node has a prefix of what any node that it draws on has. -/
theorem Followed.isPrefix (h : Followed upstream log) {p r : ι} (hdraws : DrawsOn upstream p r) :
    log p <+: log r := by
  induction hdraws with
  | refl => exact List.prefix_refl _
  | tail _ hfollows ih => exact ih.trans (h _ _ hfollows)

/-- Of two nodes that draw on one node, one has a prefix of what the other has. -/
theorem Followed.comparable (h : Followed upstream log) {p q r : ι}
    (hp : DrawsOn upstream p r) (hq : DrawsOn upstream q r) :
    log p <+: log q ∨ log q <+: log p :=
  List.prefix_or_prefix_of_prefix (h.isPrefix hp) (h.isPrefix hq)

end Followers

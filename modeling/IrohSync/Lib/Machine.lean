import Mathlib.Data.List.Basic

/-!
# Machines and their runs

A machine takes one event at a time, moves to a next state and gives an answer.
A run is any list of events.  Properties of single steps are lifted to runs
here once: an invariant that every step keeps, a condition that every step of a
run meets, and two machines whose answers are compared step by step.

Main results:

- Theorem {lit}`run_invariant`: an invariant kept by the steps that meet a
  condition holds after a run all of whose steps meet it.
- Theorem {lit}`Along.of_invariant`: under an invariant, one condition on all
  steps of a run gives another; {lit}`Along.congr` and {lit}`along_iff`: two conditions
  hold along the same runs.
- Theorem {lit}`along_of_run`: a property of the last state that only the runs
  meeting a condition can have.
- Theorems {lit}`answers_eq` and {lit}`answers_eq_iff`: two machines in lock step
  answer alike in the runs all of whose steps meet a condition, and in no others.
-/

/-- A deterministic machine. -/
structure Machine (σ ε ω : Type) where
  next : σ → ε → σ
  answer : σ → ε → ω

namespace Machine

variable {σ τ ε ω : Type}

/-- The state after a list of events. -/
def run (M : Machine σ ε ω) (s : σ) (events : List ε) : σ :=
  events.foldl M.next s

/-- The answers to a list of events. -/
def answers (M : Machine σ ε ω) : σ → List ε → List ω
  | _, [] => []
  | s, e :: events => M.answer s e :: M.answers (M.next s e) events

/-- Every step of a run meets a condition on the event and the state before it. -/
def Along (M : Machine σ ε ω) (P : σ → ε → Prop) : σ → List ε → Prop
  | _, [] => True
  | s, e :: events => P s e ∧ M.Along P (M.next s e) events

instance (M : Machine σ ε ω) (P : σ → ε → Prop) [∀ s e, Decidable (P s e)] :
    ∀ s events, Decidable (M.Along P s events)
  | _, [] => isTrue trivial
  | s, e :: events =>
      have := instDecidableAlong M P (M.next s e) events
      inferInstanceAs (Decidable (P s e ∧ M.Along P (M.next s e) events))

variable {M : Machine σ ε ω}

@[simp]
theorem run_nil (s : σ) : M.run s [] = s :=
  rfl

@[simp]
theorem run_cons (s : σ) (e : ε) (events : List ε) :
    M.run s (e :: events) = M.run (M.next s e) events :=
  rfl

theorem run_append (s : σ) (front back : List ε) :
    M.run s (front ++ back) = M.run (M.run s front) back :=
  List.foldl_append

@[simp]
theorem answers_nil (s : σ) : M.answers s [] = [] :=
  rfl

@[simp]
theorem answers_cons (s : σ) (e : ε) (events : List ε) :
    M.answers s (e :: events) = M.answer s e :: M.answers (M.next s e) events :=
  rfl

theorem answers_append (s : σ) (front back : List ε) :
    M.answers s (front ++ back) = M.answers s front ++ M.answers (M.run s front) back := by
  induction front generalizing s with
  | nil => rfl
  | cons e front ih => rw [List.cons_append, answers_cons, answers_cons, ih, run_cons,
      List.cons_append]

@[simp]
theorem along_nil (P : σ → ε → Prop) (s : σ) : M.Along P s [] :=
  trivial

@[simp]
theorem along_cons (P : σ → ε → Prop) (s : σ) (e : ε) (events : List ε) :
    M.Along P s (e :: events) ↔ P s e ∧ M.Along P (M.next s e) events :=
  Iff.rfl

theorem along_append {P : σ → ε → Prop} (s : σ) (front back : List ε) :
    M.Along P s (front ++ back) ↔ M.Along P s front ∧ M.Along P (M.run s front) back := by
  induction front generalizing s with
  | nil => exact ⟨fun h => ⟨trivial, h⟩, And.right⟩
  | cons e front ih => rw [List.cons_append, along_cons, along_cons, ih, run_cons, and_assoc]

/-- Every run meets the condition that always holds. -/
theorem along_trivial (s : σ) (events : List ε) : M.Along (fun _ _ => True) s events := by
  induction events generalizing s with
  | nil => trivial
  | cons e events ih => exact ⟨trivial, ih _⟩

/-- A condition on the steps of a run and one on its events. -/
theorem Along.and {P : σ → ε → Prop} {Q : ε → Prop} {s : σ} {events : List ε}
    (halong : M.Along P s events) (hevents : ∀ e ∈ events, Q e) :
    M.Along (fun s e => P s e ∧ Q e) s events := by
  induction events generalizing s with
  | nil => trivial
  | cons e events ih =>
      exact ⟨⟨halong.1, hevents e List.mem_cons_self⟩,
        ih halong.2 fun e he => hevents e (List.mem_cons_of_mem _ he)⟩

/-- Two conditions on the steps of a run. -/
theorem Along.both {P Q : σ → ε → Prop} {s : σ} {events : List ε} (hP : M.Along P s events)
    (hQ : M.Along Q s events) : M.Along (fun s e => P s e ∧ Q s e) s events := by
  induction events generalizing s with
  | nil => trivial
  | cons e events ih => exact ⟨⟨hP.1, hQ.1⟩, ih hP.2 hQ.2⟩

/-- A condition on the events alone. -/
theorem along_events_iff {Q : ε → Prop} (s : σ) {events : List ε} :
    M.Along (fun _ e => Q e) s events ↔ ∀ e ∈ events, Q e := by
  induction events generalizing s with
  | nil => simp
  | cons e events ih => rw [along_cons, ih, List.forall_mem_cons]

/-- An invariant that the steps meeting a condition keep. -/
theorem run_invariant {I : σ → Prop} {P : σ → ε → Prop}
    (hstep : ∀ s e, I s → P s e → I (M.next s e)) {s : σ} {events : List ε}
    (hs : I s) (halong : M.Along P s events) : I (M.run s events) := by
  induction events generalizing s with
  | nil => exact hs
  | cons e events ih => exact ih (hstep s e hs halong.1) halong.2

/-- Under an invariant one condition on all steps gives another. -/
theorem Along.of_invariant {I : σ → Prop} {P Q : σ → ε → Prop}
    (hstep : ∀ s e, I s → P s e → I (M.next s e)) (hPQ : ∀ s e, I s → P s e → Q s e)
    {s : σ} {events : List ε} (hs : I s) (halong : M.Along P s events) :
    M.Along Q s events := by
  induction events generalizing s with
  | nil => trivial
  | cons e events ih =>
      exact ⟨hPQ s e hs halong.1, ih (hstep s e hs halong.1) halong.2⟩

/-- Along a run that meets a condition, two more conditions that are alike on single
steps, under an invariant that the steps meeting the first of them keep, are alike. -/
theorem Along.congr {I : σ → Prop} {C P Q : σ → ε → Prop} {s : σ} {events : List ε}
    (halong : M.Along C s events) (hstep : ∀ s e, I s → C s e → P s e → I (M.next s e))
    (hPQ : ∀ s e, I s → C s e → (P s e ↔ Q s e)) (hs : I s) :
    M.Along P s events ↔ M.Along Q s events := by
  constructor
  · intro hP
    exact (halong.both hP).of_invariant (I := I) (fun s e h hboth => hstep s e h hboth.1 hboth.2)
      (fun s e h hboth => (hPQ s e h hboth.1).mp hboth.2) hs
  · intro hQ
    exact (halong.both hQ).of_invariant (I := I)
      (fun s e h hboth => hstep s e h hboth.1 ((hPQ s e h hboth.1).mpr hboth.2))
      (fun s e h hboth => (hPQ s e h hboth.1).mpr hboth.2) hs

/-- Under an invariant that the steps meeting one condition keep, two conditions that
are alike on single steps hold along the same runs. -/
theorem along_iff {I : σ → Prop} {P Q : σ → ε → Prop}
    (hstep : ∀ s e, I s → P s e → I (M.next s e)) (hPQ : ∀ s e, I s → (P s e ↔ Q s e))
    {s : σ} (hs : I s) (events : List ε) : M.Along P s events ↔ M.Along Q s events :=
  (along_trivial s events).congr (fun s e h _ => hstep s e h) (fun s e h _ => hPQ s e h) hs

/-- A weaker condition. -/
theorem Along.mono {P Q : σ → ε → Prop} (hPQ : ∀ s e, P s e → Q s e) {s : σ}
    {events : List ε} (halong : M.Along P s events) : M.Along Q s events :=
  halong.of_invariant (I := fun _ => True) (fun _ _ _ _ => trivial) (fun s e _ => hPQ s e) trivial

/-- If every step that meets a condition keeps an invariant, and what holds of the
last state of a run holds of all earlier states and allows only such steps, then
every step of the run meets the condition. -/
theorem along_of_run {I G : σ → Prop} {P : σ → ε → Prop}
    (hstep : ∀ s e, I s → P s e → I (M.next s e)) (hback : ∀ s e, G (M.next s e) → G s)
    (hmeets : ∀ s e, I s → G (M.next s e) → P s e) {s : σ} {events : List ε} (hs : I s)
    (hG : G (M.run s events)) : M.Along P s events := by
  have hearlier : ∀ s events, G (M.run s events) → G s := by
    intro s events
    induction events generalizing s with
    | nil => exact id
    | cons e events ih => exact fun h => hback s e (ih _ h)
  induction events generalizing s with
  | nil => trivial
  | cons e events ih =>
      have hfirst := hmeets s e hs (hearlier _ events hG)
      exact ⟨hfirst, ih (hstep s e hs hfirst) hG⟩

/-- Two machines in lock step stay related. -/
theorem run_related {N : Machine τ ε ω} {R : σ → τ → Prop}
    (hstep : ∀ s t e, R s t → R (M.next s e) (N.next t e)) {s : σ} {t : τ} (hR : R s t)
    (events : List ε) : R (M.run s events) (N.run t events) := by
  induction events generalizing s t with
  | nil => exact hR
  | cons e events ih => exact ih (hstep s t e hR)

/-- Two machines in lock step: where every step meets a condition under which
single answers are alike, all answers are. -/
theorem answers_eq {N : Machine τ ε ω} {R : σ → τ → Prop} {Q : ε → Prop} {P : σ → ε → Prop}
    (hstep : ∀ s t e, R s t → Q e → R (M.next s e) (N.next t e))
    (hanswer : ∀ s t e, R s t → Q e → P s e → M.answer s e = N.answer t e)
    {s : σ} {t : τ} (hR : R s t) {events : List ε} (hevents : ∀ e ∈ events, Q e)
    (halong : M.Along P s events) : M.answers s events = N.answers t events := by
  induction events generalizing s t with
  | nil => rfl
  | cons e events ih =>
      have hfirst := hevents e List.mem_cons_self
      rw [answers_cons, answers_cons, hanswer s t e hR hfirst halong.1,
        ih (hstep s t e hR hfirst) (fun e he => hevents e (List.mem_cons_of_mem _ he)) halong.2]

/-- If moreover single answers are alike only under the condition, the answers
are alike in no other runs. -/
theorem answers_eq_iff {N : Machine τ ε ω} {R : σ → τ → Prop} {Q : ε → Prop}
    {P : σ → ε → Prop} (hstep : ∀ s t e, R s t → Q e → R (M.next s e) (N.next t e))
    (hanswer : ∀ s t e, R s t → Q e → (M.answer s e = N.answer t e ↔ P s e))
    {s : σ} {t : τ} (hR : R s t) {events : List ε} (hevents : ∀ e ∈ events, Q e) :
    M.answers s events = N.answers t events ↔ M.Along P s events := by
  refine ⟨fun heq => ?_, fun halong =>
    answers_eq hstep (fun s t e hR hQ => (hanswer s t e hR hQ).mpr) hR hevents halong⟩
  induction events generalizing s t with
  | nil => trivial
  | cons e events ih =>
      have hfirst := hevents e List.mem_cons_self
      rw [answers_cons, answers_cons, List.cons.injEq] at heq
      exact ⟨(hanswer s t e hR hfirst).mp heq.1,
        ih (hstep s t e hR hfirst) (fun e he => hevents e (List.mem_cons_of_mem _ he)) heq.2⟩

end Machine

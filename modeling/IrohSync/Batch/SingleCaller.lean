import IrohSync.Batch.FlushTask

/-!
# A single caller of the flush task

If the calls for one batcher come one after the other, no future is dropped and no task
panics, there is never more than one task, and the handle tells whether it runs.  As before a
tick of the task is one step.

Main results:

- Theorem {lit}`Supervised.Alone.next`: where the task of a single caller is, at each point
  of a start or a shutdown.
- Theorem {lit}`flush_task_exact`: what the caller can rely on.
-/

namespace IrohSync

namespace Batch

open Machine

/-! ## Where the task is -/

/-- A task before it is spawned, which was not told to end. -/
def Slot.Fresh (slot : Slot) : Prop :=
  slot.phase = .unspawned ∧ slot.watch.changed 0 = false

/-- A running task, which was not told to end. -/
def Slot.Active (slot : Slot) : Prop :=
  slot.phase = .running ∧ slot.watch.changed 0 = false

/-- A task that was told to end and has not ended yet. -/
def Slot.Stopping (slot : Slot) : Prop :=
  slot.watch.changed 0 = true ∧ (slot.phase = .running ∨ slot.phase = .leaving)

namespace Supervised

section Single

variable {s : Supervised Unit}

/-- One task is as described, and all others have ended. -/
def Only (s : Supervised Unit) (i : Nat) (P : Slot → Prop) : Prop :=
  (∃ slot, s.slots[i]? = some slot ∧ P slot) ∧
    ∀ (j : Nat) (slot : Slot), s.slots[j]? = some slot → j ≠ i → slot.phase = .ended

/-- All tasks have ended, and there is no handle. -/
def Quiet (s : Supervised Unit) : Prop :=
  s.handle = none ∧ ∀ (j : Nat) (slot : Slot), s.slots[j]? = some slot → slot.phase = .ended

/-- Where the only task of a caller is while the caller is somewhere. -/
def AloneAt (s : Supervised Unit) : FlushCaller → Prop
  | .idle => s.Quiet ∨ ∃ i, s.handle = some i ∧ s.Only i Slot.Active
  | .checked => s.Quiet
  | .stored i => s.handle = none ∧ s.Only i Slot.Fresh
  | .spawned i => s.handle = none ∧ s.Only i Slot.Active
  | .signalled => s.Quiet ∨ ∃ i, s.handle = some i ∧ s.Only i Slot.Stopping
  | .awaiting i => s.handle = none ∧
      (s.Only i Slot.Stopping ∨ s.Only i fun slot => slot.phase = .ended)

/-- Where the only task of a caller is. -/
def Alone (s : Supervised Unit) : Prop :=
  s.AloneAt (s.callers ())

/-- No future is dropped and no task panics. -/
def Calm : SuperEvent Unit → Prop
  | .cancel _ => False
  | .crash _ => False
  | _ => True

/-- A task that has not ended is the one task. -/
theorem Only.phaseAt {i j : Nat} {P : Slot → Prop} {phase : TaskPhase} (h : s.Only i P)
    (hphase : s.phaseAt j = some phase) (hne : phase ≠ .ended) :
    j = i ∧ ∃ slot, s.slots[i]? = some slot ∧ P slot ∧ slot.phase = phase := by
  rcases Option.map_eq_some_iff.mp hphase with ⟨slot, hslot, rfl⟩
  have hji : j = i := by
    by_contra hji
    exact hne (h.2 j slot hslot hji)
  subst hji
  rcases h.1 with ⟨slot', hslot', hP⟩
  obtain rfl := Option.some.inj (hslot.symm.trans hslot')
  exact ⟨rfl, slot, hslot, hP, rfl⟩

theorem Quiet.phaseAt {j : Nat} {phase : TaskPhase} (h : s.Quiet)
    (hphase : s.phaseAt j = some phase) : phase = .ended := by
  rcases Option.map_eq_some_iff.mp hphase with ⟨slot, hslot, rfl⟩
  exact h.2 j slot hslot

/-- The slot of the one task changes. -/
theorem Only.modify {i : Nat} {P Q : Slot → Prop} {f : Slot → Slot} (h : s.Only i P)
    (hf : ∀ slot, P slot → Q (f slot)) {s' : Supervised Unit}
    (hslots : s'.slots = s.slots.modify i f) : s'.Only i Q := by
  rcases h with ⟨⟨slot, hslot, hP⟩, hothers⟩
  refine ⟨⟨f slot, by simp [hslots, hslot], hf slot hP⟩, fun j slot' hslot' hji => ?_⟩
  have hold : s.slots[j]? = some slot' := by
    simpa [hslots, List.getElem?_modify, Ne.symm hji] using hslot'
  exact hothers j slot' hold hji

/-- The one task has ended. -/
theorem Only.quiet {i : Nat} (h : s.Only i fun slot => slot.phase = .ended)
    (hhandle : s.handle = none) : s.Quiet := by
  refine ⟨hhandle, fun j slot hslot => ?_⟩
  by_cases hji : j = i
  · subst hji
    rcases h.1 with ⟨slot', hslot', hended⟩
    obtain rfl := Option.some.inj (hslot.symm.trans hslot')
    exact hended
  · exact h.2 j slot hslot hji

theorem Quiet.signal (h : s.Quiet) : s.signal.Quiet := by
  refine ⟨?_, fun j slot hslot => ?_⟩
  · rw [Supervised.signal]
    split <;> exact h.1
  · have hphase : s.signal.phaseAt j = some slot.phase := by simp [Supervised.phaseAt, hslot]
    rw [phaseAt_signal] at hphase
    exact h.phaseAt hphase

/-- After the signal of a shutdown the one task was told to end. -/
theorem Only.signal {i : Nat} (h : s.Only i Slot.Active) (hwired : s.Wired) :
    s.signal.handle = s.handle ∧ s.signal.Only i Slot.Stopping := by
  rcases h.1 with ⟨slot, hslot, hrunning, hchanged⟩
  have htx := hwired i slot hslot (Watch.changed_eq_false_iff.mp hchanged).2
  have hsignal : s.signal =
      { s with
        slots := s.slots.modify i fun slot => { slot with watch := slot.watch.send } } := by
    rw [Supervised.signal, htx]
  rw [hsignal]
  refine ⟨rfl, h.modify (f := fun slot => { slot with watch := slot.watch.send }) ?_ rfl⟩
  exact fun slot hactive => ⟨Watch.changed_send (Nat.zero_le _), Or.inl hactive.1⟩

/-- The new slot is the only one whose task has not ended. -/
theorem Quiet.store (h : s.Quiet) :
    s.store.handle = none ∧ s.store.Only s.slots.length Slot.Fresh := by
  rcases store_slots s with ⟨before, hstore, hlength, hbefore⟩
  refine ⟨h.1, ⟨⟨.new, .unspawned⟩, ?_, rfl, rfl⟩, fun j slot hslot hne => ?_⟩
  · rw [hstore, ← hlength, List.getElem?_concat_length]
  · rw [hstore] at hslot
    have hlt := (List.getElem?_eq_some_iff.mp hslot).1
    rw [List.length_append, List.length_singleton] at hlt
    have hj : j < before.length := by omega
    rw [List.getElem?_append_left hj] at hslot
    have hold := List.getElem?_eq_getElem (hlength ▸ hj)
    rcases hbefore j _ hold with ⟨slot', hslot', hphase, _, _⟩
    obtain rfl := Option.some.inj (hslot'.symm.trans hslot)
    exact hphase.trans (h.2 j _ hold)

/-- A state with the same slots, handle and caller. -/
theorem Alone.of_same (h : s.Alone) {s' : Supervised Unit} (hslots : s'.slots = s.slots)
    (hhandle : s'.handle = s.handle) (hcallers : s'.callers = s.callers) : s'.Alone := by
  have hquiet : s.Quiet → s'.Quiet := fun hq =>
    ⟨hhandle.trans hq.1, fun j slot hslot => hq.2 j slot (hslots ▸ hslot)⟩
  have honly : ∀ {i P}, s.Only i P → s'.Only i P := fun ho => by
    rw [Only, hslots]
    exact ho
  unfold Alone at h ⊢
  rw [hcallers]
  cases hcaller : s.callers () with
  | idle =>
      rw [hcaller] at h
      exact h.imp hquiet fun ⟨i, hi, ho⟩ => ⟨i, hhandle.trans hi, honly ho⟩
  | checked =>
      rw [hcaller] at h
      exact hquiet h
  | stored i =>
      rw [hcaller] at h
      exact ⟨hhandle.trans h.1, honly h.2⟩
  | spawned i =>
      rw [hcaller] at h
      exact ⟨hhandle.trans h.1, honly h.2⟩
  | signalled =>
      rw [hcaller] at h
      exact h.imp hquiet fun ⟨i, hi, ho⟩ => ⟨i, hhandle.trans hi, honly ho⟩
  | awaiting i =>
      rw [hcaller] at h
      exact ⟨hhandle.trans h.1, h.2.imp honly honly⟩

/-- The caller comes to where its task is as described. -/
theorem alone_setCaller {caller : FlushCaller} (h : s.AloneAt caller) :
    (s.setCaller () caller).Alone := by
  have hcaller : (s.setCaller () caller).callers () = caller := by simp [setCaller]
  rw [Alone, hcaller]
  cases caller with
  | idle => exact h
  | checked => exact h
  | stored i => exact h
  | spawned i => exact h
  | signalled => exact h
  | awaiting i => exact h

/-- A start or a shutdown begins, or goes on. -/
theorem Alone.call (h : s.Alone) (hwired : s.Wired) {event : SuperEvent Unit}
    (hevent : event = .start () ∨ event = .shutdown () ∨ event = .advance ()) :
    (s.next event).Alone := by
  have hhere := h
  unfold Alone at h
  rcases hevent with rfl | rfl | rfl
  · rw [next]
    split
    · next hfree =>
        rw [hfree.1] at h
        refine alone_setCaller ?_
        rcases h with hquiet | ⟨i, hi, _⟩
        · exact hquiet
        · exact absurd (hi.symm.trans hfree.2) (Option.some_ne_none i)
    · exact hhere
  · rw [next]
    split
    · next hidle =>
        rw [hidle] at h
        refine alone_setCaller ?_
        rcases h with hquiet | ⟨i, hi, honly⟩
        · exact Or.inl hquiet.signal
        · have hsignal := honly.signal hwired
          exact Or.inr ⟨i, hsignal.1.trans hi, hsignal.2⟩
    · exact hhere
  · rw [next, advance]
    cases hcaller : s.callers () with
    | idle =>
        rw [hcaller] at h
        exact hhere
    | checked =>
        rw [hcaller] at h
        refine alone_setCaller ?_
        exact Quiet.store h
    | stored i =>
        rw [hcaller] at h
        refine alone_setCaller ?_
        exact ⟨h.1, h.2.modify (f := fun slot => { slot with phase := .running })
          (fun slot hfresh => ⟨rfl, hfresh.2⟩) rfl⟩
    | spawned i =>
        rw [hcaller] at h
        refine alone_setCaller ?_
        exact Or.inr ⟨i, rfl, h.2⟩
    | signalled =>
        rw [hcaller] at h
        dsimp only
        split
        · next hnone =>
            refine alone_setCaller ?_
            rcases h with hquiet | ⟨i, hi, _⟩
            · exact Or.inl hquiet
            · exact absurd (hi.symm.trans hnone) (Option.some_ne_none i)
        · next i hsome =>
            refine alone_setCaller ?_
            rcases h with hquiet | ⟨j, hj, honly⟩
            · exact absurd (hsome.symm.trans hquiet.1) (Option.some_ne_none i)
            · obtain rfl := Option.some.inj (hj.symm.trans hsome)
              exact ⟨rfl, Or.inl honly⟩
    | awaiting i =>
        rw [hcaller] at h
        dsimp only
        split
        · next hended =>
            refine alone_setCaller ?_
            rcases h.2 with honly | honly
            · rcases Option.map_eq_some_iff.mp hended with ⟨slot, hslot, hphase⟩
              rcases honly.1 with ⟨slot', hslot', _, hstill⟩
              obtain rfl := Option.some.inj (hslot.symm.trans hslot')
              simp [hphase] at hstill
            · exact Or.inl (honly.quiet h.1)
        · split
          · next hcrashed =>
              rcases h.2 with honly | honly
              · rcases (honly.phaseAt hcrashed (by decide)).2 with ⟨slot, _, ⟨_, hstill⟩, hphase⟩
                simp [hphase] at hstill
              · rcases (honly.phaseAt hcrashed (by decide)).2 with ⟨slot, _, hended, hphase⟩
                simp [hphase] at hended
          · exact hhere

/-- The one task leaves its loop, which it does only if it was told to. -/
theorem Alone.leave (h : s.Alone) {j : Nat} (hphase : s.phaseAt j = some .running)
    (htold : s.toldAt j = some true) : (s.setPhase j .leaving).Alone := by
  have hactive : ∀ {i P}, s.Only i P → (∀ slot, P slot → slot.watch.changed 0 = false) →
      False := by
    intro i P honly hP
    rcases honly.phaseAt hphase (by decide) with ⟨rfl, slot, hslot, hslotP, _⟩
    simp [toldAt, hslot, hP slot hslotP] at htold
  have hstopping : ∀ {i}, s.Only i Slot.Stopping →
      (s.setPhase j .leaving).Only i Slot.Stopping := by
    intro i honly
    obtain rfl := (honly.phaseAt hphase (by decide)).1
    exact honly.modify (f := fun slot => { slot with phase := .leaving })
      (fun slot hstop => ⟨hstop.1, Or.inr rfl⟩) rfl
  have hcaller : (s.setPhase j .leaving).callers () = s.callers () := rfl
  rw [Alone, hcaller]
  unfold Alone at h
  generalize s.callers () = caller at h
  cases caller with
  | idle =>
      rcases h with hquiet | ⟨i, _, honly⟩
      · exact absurd (hquiet.phaseAt hphase) (by decide)
      · exact (hactive honly fun slot hslot => hslot.2).elim
  | checked => exact absurd (Quiet.phaseAt h hphase) (by decide)
  | stored i => exact (hactive h.2 fun slot hslot => hslot.2).elim
  | spawned i => exact (hactive h.2 fun slot hslot => hslot.2).elim
  | signalled =>
      rcases h with hquiet | ⟨i, hi, honly⟩
      · exact absurd (hquiet.phaseAt hphase) (by decide)
      · exact Or.inr ⟨i, hi, hstopping honly⟩
  | awaiting i =>
      rcases h with ⟨hhandle, honly | honly⟩
      · exact ⟨hhandle, Or.inl (hstopping honly)⟩
      · rcases (honly.phaseAt hphase (by decide)).2 with ⟨slot, _, hended, hrunning⟩
        simp [hrunning] at hended

/-- The one task clears the handle and ends. -/
theorem Alone.clear (h : s.Alone) {j : Nat} (hphase : s.phaseAt j = some .leaving) :
    ((s.setPhase j .ended).setHandle none).Alone := by
  have hactive : ∀ {i P}, s.Only i P → (∀ slot, P slot → slot.phase ≠ .leaving) → False := by
    intro i P honly hP
    rcases (honly.phaseAt hphase (by decide)).2 with ⟨slot, _, hslotP, hleaving⟩
    exact hP slot hslotP hleaving
  have hended : ∀ {i}, s.Only i Slot.Stopping →
      ((s.setPhase j .ended).setHandle none).Only i fun slot => slot.phase = .ended := by
    intro i honly
    obtain rfl := (honly.phaseAt hphase (by decide)).1
    exact honly.modify (f := fun slot => { slot with phase := .ended }) (fun _ _ => rfl) rfl
  have hcaller : ((s.setPhase j .ended).setHandle none).callers () = s.callers () := rfl
  rw [Alone, hcaller]
  unfold Alone at h
  generalize s.callers () = caller at h
  cases caller with
  | idle =>
      rcases h with hquiet | ⟨i, _, honly⟩
      · exact absurd (hquiet.phaseAt hphase) (by decide)
      · exact (hactive honly fun slot hslot => by simp [hslot.1]).elim
  | checked => exact absurd (Quiet.phaseAt h hphase) (by decide)
  | stored i => exact (hactive h.2 fun slot hslot => by simp [hslot.1]).elim
  | spawned i => exact (hactive h.2 fun slot hslot => by simp [hslot.1]).elim
  | signalled =>
      rcases h with hquiet | ⟨i, hi, honly⟩
      · exact absurd (hquiet.phaseAt hphase) (by decide)
      · exact Or.inl ((hended honly).quiet rfl)
  | awaiting i =>
      rcases h with ⟨_, honly | honly⟩
      · exact ⟨rfl, Or.inr (hended honly)⟩
      · exact (hactive honly fun slot hslot => by simp [hslot]).elim

theorem Alone.next (h : s.Alone) (hwired : s.Wired) {event : SuperEvent Unit}
    (hcalm : Calm event) : (s.next event).Alone := by
  cases event with
  | start k => exact h.call hwired (Or.inl rfl)
  | shutdown k => exact h.call hwired (Or.inr (Or.inl rfl))
  | advance k => exact h.call hwired (Or.inr (Or.inr rfl))
  | cancel k => exact hcalm.elim
  | tick i now =>
      rw [Supervised.next]
      split
      · exact h.of_same rfl rfl rfl
      · exact h
  | leave i =>
      rw [Supervised.next]
      split
      · next hleaves => exact h.leave hleaves.1 hleaves.2
      · exact h
  | clear i =>
      rw [Supervised.next]
      split
      · next hleaving => exact h.clear hleaving
      · exact h
  | crash i => exact hcalm.elim
  | outer event => exact h.of_same rfl rfl rfl

theorem Alone.run (h : s.Alone) (hwired : s.Wired) {events : List (SuperEvent Unit)}
    (hcalm : ∀ event ∈ events, Calm event) : (supervised.run s events).Alone := by
  have halong : supervised.Along (fun _ event => Calm event) s events :=
    (along_events_iff s).mpr hcalm
  have hstep : ∀ (s : Supervised Unit) event, s.Alone ∧ s.Wired → Calm event →
      (s.next event).Alone ∧ (s.next event).Wired :=
    fun _ event h hcalm => ⟨h.1.next h.2 hcalm, h.2.next event⟩
  exact (run_invariant (I := fun s : Supervised Unit => s.Alone ∧ s.Wired) hstep ⟨h, hwired⟩
    halong).1

end Single

end Supervised

/-! ## What the caller sees -/

namespace Supervised

/-- A task is there that has not ended. -/
def LiveAt (s : Supervised Unit) (i : Nat) : Prop :=
  ∃ phase, s.phaseAt i = some phase ∧ phase ≠ .ended

/-- The caller is on its way through a shutdown, or back from it. -/
def Stops (s : Supervised Unit) : Prop :=
  match s.callers () with
  | .idle => s.handle = none
  | .signalled => True
  | .awaiting _ => True
  | .checked => False
  | .stored _ => False
  | .spawned _ => False

/-- No further start or shutdown begins. -/
def NoCall : SuperEvent Unit → Prop
  | .start _ => False
  | .shutdown _ => False
  | _ => True

variable {s : Supervised Unit}

theorem Quiet.not_live (h : s.Quiet) (i : Nat) : ¬ s.LiveAt i := by
  rintro ⟨phase, hphase, hne⟩
  exact hne (h.phaseAt hphase)

/-- No two tasks are there. -/
theorem Alone.single (h : s.Alone) {i j : Nat} (hi : s.LiveAt i) (hj : s.LiveAt j) : i = j := by
  have hone : s.Quiet ∨ ∃ c P, s.Only c P := by
    unfold Alone at h
    generalize s.callers () = caller at h
    cases caller with
    | idle => exact h.imp id fun ⟨c, _, honly⟩ => ⟨c, _, honly⟩
    | checked => exact Or.inl h
    | stored c => exact Or.inr ⟨c, _, h.2⟩
    | spawned c => exact Or.inr ⟨c, _, h.2⟩
    | signalled => exact h.imp id fun ⟨c, _, honly⟩ => ⟨c, _, honly⟩
    | awaiting c => exact Or.inr (h.2.elim (fun honly => ⟨c, _, honly⟩) fun honly => ⟨c, _, honly⟩)
  rcases hone with hquiet | ⟨c, P, honly⟩
  · exact absurd hi (hquiet.not_live i)
  · rcases hi with ⟨phase, hphase, hne⟩
    rcases hj with ⟨phase', hphase', hne'⟩
    exact (honly.phaseAt hphase hne).1.trans (honly.phaseAt hphase' hne').1.symm

theorem Stops.next (hstops : s.Stops) (h : s.Alone) {event : SuperEvent Unit}
    (hcalm : Calm event) (hnone : NoCall event) : (s.next event).Stops := by
  cases event with
  | start k => exact hnone.elim
  | shutdown k => exact hnone.elim
  | advance k =>
      have hsame := hstops
      have hcaller : ∀ (t : Supervised Unit) caller,
          (t.setCaller () caller).callers () = caller := fun t caller => by simp [setCaller]
      rw [Supervised.next, advance]
      unfold Alone at h
      unfold Stops at hstops
      split
      · exact hsame
      · next hchecked => simp [hchecked] at hstops
      · next i hstored => simp [hstored] at hstops
      · next i hspawned => simp [hspawned] at hstops
      · split
        · next hhandle =>
            rw [Stops, hcaller]
            exact hhandle
        · rw [Stops, hcaller]
          trivial
      · next i hawaiting =>
          rw [hawaiting] at h
          split
          · rw [Stops, hcaller]
            exact h.1
          · split
            · rw [Stops, hcaller]
              exact h.1
            · exact hsame
  | cancel k => exact hcalm.elim
  | tick i now =>
      rw [Supervised.next]
      split <;> exact hstops
  | leave i =>
      rw [Supervised.next]
      split <;> exact hstops
  | clear i =>
      rw [Supervised.next]
      split
      · have hcaller : ((s.setPhase i .ended).setHandle none).callers () = s.callers () := rfl
        unfold Stops at hstops ⊢
        rw [hcaller]
        generalize s.callers () = caller at hstops
        cases caller <;> first | rfl | exact hstops
      · exact hstops
  | crash i => exact hcalm.elim
  | outer event => exact hstops

/-- A task that was told to end has ended and cleared the handle after two steps at most. -/
theorem Only.ends {i : Nat} (h : s.Only i Slot.Stopping) :
    (supervised.run s [.leave i, .clear i]).phaseAt i = some .ended ∧
      (supervised.run s [.leave i, .clear i]).handle = none ∧
      (supervised.run s [.leave i, .clear i]).callers = s.callers := by
  rcases h.1 with ⟨slot, hslot, htold, hphase⟩
  have hleaving : ∃ t : Supervised Unit, s.next (.leave i) = t ∧ t.callers = s.callers ∧
      t.phaseAt i = some .leaving := by
    rcases hphase with hrunning | hleaving
    · refine ⟨s.setPhase i .leaving, if_pos ⟨?_, ?_⟩, rfl, s.phaseAt_setPhase hslot .leaving⟩
      · simp [Supervised.phaseAt, hslot, hrunning]
      · simp [toldAt, hslot, htold]
    · have hat : s.phaseAt i = some .leaving := by simp [Supervised.phaseAt, hslot, hleaving]
      exact ⟨s, if_neg (by simp [hat]), rfl, hat⟩
  rcases hleaving with ⟨t, hnext, hcallers, hat⟩
  have hrun : supervised.run s [.leave i, .clear i] = (t.setPhase i .ended).setHandle none := by
    rw [← hnext] at hat ⊢
    exact if_pos hat
  rcases Option.map_eq_some_iff.mp hat with ⟨slot', hslot', _⟩
  rw [hrun]
  exact ⟨t.phaseAt_setPhase hslot' .ended, rfl, hcallers⟩

/-- A shutdown can always return. -/
theorem Stops.returns (hstops : s.Stops) (h : s.Alone) :
    ∃ rest, (supervised.run s rest).callers () = .idle := by
  -- without a handle the caller does not wait
  have hnone : ∀ t : Supervised Unit, t.callers () = .signalled → t.handle = none →
      (t.next (.advance ())).callers () = .idle := by
    intro t hcaller hhandle
    simp [Supervised.next, advance, hcaller, hhandle, setCaller]
  have hended : ∀ (t : Supervised Unit) i, t.callers () = .awaiting i →
      t.phaseAt i = some .ended → (t.next (.advance ())).callers () = .idle := by
    intro t i hcaller hphase
    simp [Supervised.next, advance, hcaller, hphase, setCaller]
  unfold Stops at hstops
  unfold Alone at h
  cases hcaller : s.callers () with
  | idle => exact ⟨[], hcaller⟩
  | checked => simp [hcaller] at hstops
  | stored i => simp [hcaller] at hstops
  | spawned i => simp [hcaller] at hstops
  | signalled =>
      rw [hcaller] at h
      rcases h with hquiet | ⟨i, hi, honly⟩
      · exact ⟨[.advance ()], hnone s hcaller hquiet.1⟩
      · rcases honly.ends with ⟨_, hhandle, hcallers⟩
        exact ⟨[.leave i, .clear i, .advance ()],
          hnone _ ((congrFun hcallers ()).trans hcaller) hhandle⟩
  | awaiting i =>
      rw [hcaller] at h
      rcases h.2 with honly | honly
      · rcases honly.ends with ⟨hphase, _, hcallers⟩
        exact ⟨[.leave i, .clear i, .advance ()],
          hended _ i ((congrFun hcallers ()).trans hcaller) hphase⟩
      · rcases honly.1 with ⟨slot, hslot, hphase⟩
        exact ⟨[.advance ()],
          hended s i hcaller (by simp [Supervised.phaseAt, hslot, hphase])⟩

end Supervised

end Batch

end IrohSync

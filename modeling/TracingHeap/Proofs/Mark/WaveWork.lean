import TracingHeap.Proofs.Mark.EdgeWork
import TracingHeap.Proofs.Trace.Waves

namespace TracingHeap

namespace Tracer

variable {tr : Tracer} {g h : Handle} {m m' : Marking} {o : Object}

/-- Following a strong reference. -/
theorem followStrong_dealt (ho : m.table.get? o.handle = some o)
    (hok : tr.followStrong o m = .ok m') :
    tr.Dealt g m.table m'.table (m.owed g) (m'.owed g) (tr.followStrongDeeds o m) := by
  -- the other flag is cleared last, whatever was done before
  have tail : ∀ {m₁ : Marking} {deeds : List Deed},
      (if o.has .noStrongReference then m₁.clearFlag o.handle .noStrongReference else m₁) = m' →
      tr.Dealt g m.table m₁.table (m.owed g) (m₁.owed g) deeds →
        tr.Dealt g m.table m'.table (m.owed g) (m'.owed g) deeds := by
    rintro m₁ deeds rfl h
    split
    · exact h.then_idle (.clearFlag (by decide) m₁.table _) (m₁.owed_clearNoStrong _)
    · exact h
  unfold followStrong at hok
  unfold followStrongDeeds
  dsimp only at hok ⊢
  split at hok
  · rename_i hu
    rw [if_pos hu]
    have hclaim := Marking.owed_unflag (g := g) ho hu
    have hakin : m.table.Akin (m.clearFlag o.handle .unreachable).table :=
      .clearFlag (by decide) m.table o.handle
    split at hok
    · cases hok
    · rename_i hown
      rw [if_neg hown]
      split at hok
      · rename_i hroot
        rw [if_pos hroot]
        obtain ⟨m₁, hexpand, hok⟩ := except_bind_ok hok
        have hexpanded := expand_dealt (g := g) _ _ _ hexpand
        rw [hclaim] at hexpanded
        exact tail (Except.ok.inj hok) (hexpanded.after_idle hakin rfl)
      · rename_i hroot
        rw [if_neg hroot]
        exact tail (Except.ok.inj hok) (.idle hakin ((Marking.owed_reach _ _).trans hclaim))
  · rename_i hu
    rw [if_neg hu]
    split at hok
    · rename_i hm
      rw [if_pos hm]
      obtain ⟨m₁, hreach, hok⟩ := except_bind_ok hok
      exact tail (Except.ok.inj hok) (reachMember_dealt expand_dealt hreach)
    · rename_i hm
      rw [if_neg hm]
      exact tail (Except.ok.inj hok) (.idle (.refl _) rfl)

/-- Looking at one slot of an object. -/
theorem visit_dealt (ht : m.table.Tidy) {v : Visit} (hok : tr.visit o m v = .ok m') :
    tr.Dealt g m.table m'.table (m.owed g) (m'.owed g) (tr.visitDeeds o m v) := by
  unfold visit at hok
  unfold visitDeeds
  cases hslot : m.table.slotAt? ⟨o.handle, v.address⟩ with
  | none =>
    simp only [hslot] at hok ⊢
    cases hok
    exact .idle (.refl _) rfl
  | some slot =>
    simp only [hslot, follow] at hok ⊢
    cases slot with
    | none =>
      cases hok
      exact .idle (.refl _) rfl
    | some h =>
      dsimp only at hok ⊢
      cases hp : m.table.isPermanent h with
      | true =>
        simp only [hp, if_true] at hok ⊢
        cases hok
        exact .idle (.refl _) rfl
      | false =>
        simp only [hp, Bool.false_eq_true, if_false] at hok ⊢
        cases htarget : m.table.get? h with
        | none =>
          simp only [htarget] at hok
          cases hok
        | some target =>
          simp only [htarget] at hok ⊢
          split at hok
          · rename_i hk
            rw [if_pos hk]
            cases hok
            refine .idle (.clearSite m.table _) (Marking.owed_congr rfl ?_)
            exact m.table.asleep_modify o.handle fun _ => rfl
          · rename_i hk
            rw [if_neg hk]
            cases hs : v.strength with
            | weak =>
              simp only [hs] at hok ⊢
              split at hok
              all_goals
                cases hok
                exact .idle (.refl _) rfl
            | strong =>
              simp only [hs, bind_assoc] at hok ⊢
              obtain ⟨m₁, hfollow, hok⟩ := except_bind_ok hok
              cases hok
              rw [← ht.handle_eq htarget] at htarget
              exact followStrong_dealt htarget hfollow

/-- Looking at the slots of an object, one after the other. -/
theorem visits_dealt {visits : List Visit} (ht : m.table.Tidy)
    (hok : visits.foldlM (tr.visit o) m = .ok m') :
    tr.Dealt g m.table m'.table (m.owed g) (m'.owed g)
      (doneInTurn (tr.visit o) (tr.visitDeeds o) visits m) := by
  refine done_in_turn (R := fun _ (m m' : Marking) deeds => m.table.Tidy →
    tr.Dealt g m.table m'.table (m.owed g) (m'.owed g) deeds) (fun _ _ => .idle (.refl _) rfl) ?_
    hok ht
  intro v rest m m₁ m' first others hstep hdeeds hothers ht
  have hfirst := visit_dealt (g := g) ht hstep
  rw [hdeeds]
  exact hfirst.trans (hothers (hfirst.akin.tidy ht))

/-- Looking at one object of a wave: one deed less waits for it, and it is done, unless the object is a
member. -/
theorem process_dealt (ht : m.table.Tidy) (hok : tr.process m h = .ok m') :
    tr.Dealt g m.table m'.table ([h].count g + m.owed g) (m'.owed g) (tr.processDeeds m h) := by
  unfold process at hok
  unfold processDeeds
  cases ho : m.table.get? h with
  | none =>
    simp only [ho] at hok
    cases hok
  | some o =>
    simp only [ho] at hok ⊢
    split at hok
    · rename_i hroot
      rw [if_pos hroot]
      exact expand_dealt h m.countScanned m' hok
    · rename_i hroot
      rw [if_neg hroot]
      rw [Bool.not_eq_true] at hroot
      split at hok
      · rename_i hown
        rw [if_pos hown]
        obtain ⟨r, hr⟩ := Option.isSome_iff_exists.mp hown
        exact (reachMember_dealt (m := m.countScanned) expand_dealt hok).pass ho hr hroot
      · rename_i hown
        rw [if_neg hown]
        rw [Option.not_isSome_iff_eq_none] at hown
        obtain ⟨walk, hwalk, hok⟩ := except_bind_ok hok
        rw [hwalk, doneAfter_ok]
        unfold Walk.foldM at hok
        obtain ⟨m₁, hvisits, hok⟩ := except_bind_ok hok
        split at hok
        · cases hok
        · cases hok
          exact (visits_dealt (m := m.countScanned) ht hvisits).walk ⟨o, ho, hown, hroot⟩

/-- Looking at the objects of a batch, one after the other. -/
theorem batch_dealt {batch : List Handle} (ht : m.table.Tidy)
    (hok : batch.foldlM tr.process m = .ok m') :
    tr.Dealt g m.table m'.table (batch.count g + m.owed g) (m'.owed g)
      (doneInTurn tr.process tr.processDeeds batch m) := by
  refine done_in_turn (R := fun left (m m' : Marking) deeds => m.table.Tidy →
    tr.Dealt g m.table m'.table (left.count g + m.owed g) (m'.owed g) deeds)
    (fun _ _ => .idle (.refl _) (by simp)) ?_ hok ht
  intro h rest m m₁ m' first others hstep hdeeds hothers ht
  have hfirst := (process_dealt (g := g) ht hstep).frame (rest.count g)
  have hlater := (hothers (hfirst.akin.tidy ht)).of_eq (Nat.add_comm ..) rfl
  rw [hdeeds]
  refine (hfirst.trans hlater).of_eq ?_ rfl
  rw [count_queued g h rest]
  omega

/-- A task deals with the objects of its batch, and queues those that it has claimed. -/
theorem runTask_dealt {batch : List Handle} {t : Table} {pool : ScratchPool} {output : TaskOutput}
    (ht : t.Tidy) (hok : tr.runTask ⟨t, pool, output⟩ batch = .ok m) :
    tr.Dealt g t m.table (batch.count g + t.asleep g)
      (m.output.reached.toList.count g + m.table.asleep g)
      (tr.taskDeeds ⟨t, pool, output⟩ batch) := by
  have hbatch := batch_dealt (g := g)
    (m := ⟨t, pool.acquire, { output with reached := #[] }⟩) ht hok
  refine hbatch.of_eq ?_ rfl
  simp [Marking.owed]

/-- The tasks of a wave deal with their batches. The induction is on the tasks. -/
theorem runTasks_dealt {work : List (TaskOutput × List Handle)} :
    ∀ {t t' : Table} {pool pool' : ScratchPool} {done : List TaskOutput}, t.Tidy →
      tr.runTasks work t pool = .ok (done, t', pool') →
        tr.Dealt g t t' ((work.flatMap (·.2)).count g + t.asleep g)
          ((done.flatMap (·.reached.toList)).count g + t'.asleep g)
          (tr.tasksDeeds work t pool) := by
  induction work with
  | nil =>
    intro t t' pool pool' done _ hok
    cases hok
    exact .idle (.refl _) rfl
  | cons job others ih =>
    intro t t' pool pool' done ht hok
    obtain ⟨output, batch⟩ := job
    obtain ⟨m, hrun, hok⟩ := except_bind_ok hok
    obtain ⟨⟨rest, t₁, pool₁⟩, hrest, hok⟩ := except_bind_ok hok
    cases hok
    rw [tasksDeeds, hrun, doneAfter_ok]
    have hfirst := (runTask_dealt (g := g) ht hrun).frame
      ((others.flatMap (·.2)).count g)
    have hlater := (ih (hfirst.akin.tidy ht) hrest).frame (m.output.reached.toList.count g)
    simp only [List.flatMap_cons, List.count_append]
    refine (hfirst.trans (hlater.of_eq ?_ rfl)).of_eq ?_ ?_
    all_goals omega

/-- A wave taken by one task. -/
theorem serialWave_dealt {wave : List Handle} {s : TraceState} {found : List Handle × TraceState}
    (ht : s.table.Tidy) (hok : tr.serialWave wave s = .ok found) :
    tr.Dealt g s.table found.2.table (wave.count g + s.table.asleep g)
      (found.1.count g + found.2.table.asleep g) (tr.serialWaveDeeds wave s) := by
  obtain ⟨output, rest, m, houtputs, hrun, rfl⟩ := serialWave_ok hok
  unfold serialWaveDeeds
  simp only [houtputs]
  exact runTask_dealt ht hrun

/-- A wave cut into batches. -/
theorem batchedWave_dealt {workers least : Nat} (hleast : 0 < least) {wave : List Handle}
    {s : TraceState} {found : List Handle × TraceState} (ht : s.table.Tidy)
    (hok : tr.batchedWave workers least wave s = .ok found) :
    tr.Dealt g s.table found.2.table (wave.count g + s.table.asleep g)
      (found.1.count g + found.2.table.asleep g) (tr.batchedWaveDeeds workers least wave s) := by
  unfold batchedWave at hok
  unfold batchedWaveDeeds
  dsimp only at hok ⊢
  have hbatch := batchSize_ne_zero wave.length workers s.outputs.length hleast
  generalize batchSize wave.length workers s.outputs.length least = batch at *
  split at hok
  · cases hok
  · rename_i hout
    rw [if_neg hout]
    obtain ⟨⟨done, t, pool⟩, hrun, hok⟩ := except_bind_ok hok
    cases hok
    have hlen : (chunks batch wave).length ≤
        (s.outputs.take (taskCount wave.length batch)).length := by
      rw [length_chunks hbatch, List.length_take]
      omega
    have hdealt := runTasks_dealt (g := g) ht hrun
    rwa [List.flatMap_def, List.map_snd_zip hlen, flatten_chunks hbatch] at hdealt

/-- However a wave is run, it deals with its objects, and what it has claimed is the next. -/
theorem wave_dealt {plan : WavePlan} (hleast : 0 < plan.least) {wave : List Handle} {s : TraceState}
    {found : List Handle × TraceState} (ht : s.table.Tidy) (hok : tr.wave plan wave s = .ok found) :
    tr.Dealt g s.table found.2.table (wave.count g + s.table.asleep g)
      (found.1.count g + found.2.table.asleep g) (tr.waveDeeds plan wave s) := by
  let counted : TraceState := { s with tally := { s.tally with waves := s.tally.waves + 1 } }
  unfold Tracer.wave at hok
  unfold waveDeeds
  cases hw : plan.workers with
  | none =>
    simp only [hw] at hok ⊢
    exact serialWave_dealt (s := counted) ht hok
  | some workers =>
    simp only [hw] at hok ⊢
    obtain ⟨enough, henough, hok⟩ := except_bind_ok hok
    rw [henough, doneAfter_ok]
    split at hok
    · rename_i hmany
      rw [if_pos hmany]
      exact batchedWave_dealt (s := counted) hleast ht hok
    · rename_i hfew
      rw [if_neg hfew]
      exact serialWave_dealt (s := counted) ht hok

/-- Wave after wave, until nothing is queued. -/
theorem waves_dealt {plan : WavePlan} (hleast : 0 < plan.least) (fuel : Nat) {wave : List Handle}
    {s s' : TraceState} (ht : s.table.Tidy) (hok : tr.waves plan fuel wave s = .ok s') :
    tr.Dealt g s.table s'.table (wave.count g + s.table.asleep g) (s'.table.asleep g)
      (tr.wavesDeeds plan fuel wave s) := by
  induction fuel, wave, s using waves.induct with
  | case1 fuel s =>
    rw [waves] at hok
    cases hok
    rw [wavesDeeds]
    exact .idle (.refl _) (by simp)
  | case2 h rest s =>
    rw [waves] at hok
    cases hok
  | case3 fuel wave s hne ih =>
    rw [waves] at hok
    · obtain ⟨⟨next, s₁⟩, hwave, hok⟩ := except_bind_ok hok
      have hfirst := wave_dealt (g := g) hleast ht hwave
      rw [wavesDeeds, hwave, doneAfter_ok]
      · exact hfirst.trans (ih next s₁ (hfirst.akin.tidy ht) hok)
      · exact hne
    · exact hne

/-- What a trace makes of its frontier. -/
theorem trace_dealt {plan : WavePlan} (hleast : 0 < plan.least) {frontier : List Handle} {t : Table}
    {pool : ScratchPool} {tally : Tally} {s' : TraceState} (ht : t.Tidy)
    (hok : tr.trace plan frontier t pool tally = .ok s') :
    tr.Dealt g t s'.table (frontier.count g + t.asleep g) (s'.table.asleep g)
      (tr.traceDeeds plan frontier t pool tally) :=
  waves_dealt hleast _ ht hok

end Tracer

end TracingHeap

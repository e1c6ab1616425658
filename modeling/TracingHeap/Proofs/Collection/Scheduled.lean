import TracingHeap.Proofs.Cluster.ListOrder
import TracingHeap.Proofs.Purge.Pending

namespace TracingHeap

namespace Tracer

variable {tr : Tracer} {wave wave' batch : List Handle} {t t' t'' : Table} {pool pool' : ScratchPool}
  {outputs outputs' outputs'' : List TaskOutput} {output : TaskOutput} {m : Marking} {n : Nat}

theorem Takes.append (h : tr.Takes wave t outputs t' outputs')
    (h' : tr.Takes wave' t' outputs' t'' outputs'') :
    tr.Takes (wave ++ wave') t outputs t'' outputs'' := by
  induction h with
  | done => exact h'
  | next order task process _ ih => exact .next (order.append_right wave') task process (ih h')

/-- A task looks at the objects of its batch. The induction is on the objects left. -/
theorem takes_of_foldlM {i : Nat} : ∀ {batch : List Handle} {m m' : Marking}
    {outputs : List TaskOutput}, outputs[i]? = some m.output →
      batch.foldlM tr.process m = .ok m' →
        tr.Takes batch m.table outputs m'.table (outputs.set i m'.output) := by
  intro batch
  induction batch with
  | nil =>
    intro m m' outputs hget hok
    cases hok
    obtain ⟨hlt, hget⟩ := List.getElem?_eq_some_iff.mp hget
    rw [← hget, List.set_getElem_self]
    exact .done _ _
  | cons h rest ih =>
    intro m m' outputs hget hok
    rw [List.foldlM_cons] at hok
    obtain ⟨m₁, hprocess, hok⟩ := except_bind_ok hok
    obtain ⟨hlt, -⟩ := List.getElem?_eq_some_iff.mp hget
    refine .next (.refl _) hget hprocess ?_
    have hlater := ih (List.getElem?_set_self hlt) hok
    rwa [List.set_set] at hlater

theorem takes_of_runTask {i : Nat} (hget : outputs[i]? = some .empty)
    (hok : tr.runTask ⟨t, pool, .empty⟩ batch = .ok m) :
    tr.Takes batch t outputs m.table (outputs.set i m.output) :=
  takes_of_foldlM (m := ⟨t, pool.acquire, .empty⟩) hget hok

/-- The tasks of a wave, one after the other. The induction is on the tasks left; those that are done
stand before them. -/
theorem takes_of_runTasks {work : List (TaskOutput × List Handle)} :
    ∀ {t t' : Table} {pool pool' : ScratchPool} {done : List TaskOutput}
      (before after : List TaskOutput), (∀ p ∈ work, p.1 = .empty) →
      tr.runTasks work t pool = .ok (done, t', pool') →
        tr.Takes (work.flatMap (·.2)) t (before ++ work.map (·.1) ++ after) t'
          (before ++ done ++ after) := by
  induction work with
  | nil =>
    intro t t' pool pool' done before after _ hok
    cases hok
    exact .done _ _
  | cons job others ih =>
    intro t t' pool pool' done before after hempty hok
    obtain ⟨output, batch⟩ := job
    have hfirst : output = .empty := hempty _ (List.mem_cons_self ..)
    subst hfirst
    obtain ⟨m, hrun, hok⟩ := except_bind_ok hok
    obtain ⟨⟨rest, t₁, pool₁⟩, hrest, hok⟩ := except_bind_ok hok
    cases hok
    have hget : (before ++ .empty :: (others.map (·.1) ++ after))[before.length]? =
        some TaskOutput.empty := by
      simp
    have htask := takes_of_runTask hget hrun
    rw [List.set_append_right _ _ (Nat.le_refl _), Nat.sub_self, List.set_cons_zero] at htask
    have hlater := ih (before ++ [m.output]) after
      (fun p hp => hempty p (List.mem_cons_of_mem _ hp)) hrest
    simp only [List.append_assoc, List.cons_append, List.nil_append] at hlater
    simpa using htask.append hlater

theorem length_of_runTasks {work : List (TaskOutput × List Handle)} :
    ∀ {t : Table} {pool : ScratchPool} {found : List TaskOutput × Table × ScratchPool},
      tr.runTasks work t pool = .ok found → found.1.length = work.length := by
  induction work with
  | nil =>
    intro t pool found hok
    cases hok
    rfl
  | cons job others ih =>
    intro t pool found hok
    obtain ⟨m, -, hok⟩ := except_bind_ok hok
    obtain ⟨rest, hrest, hok⟩ := except_bind_ok hok
    cases hok
    exact congrArg (· + 1) (ih hrest)

structure Took (tr : Tracer) (n : Nat) (wave : List Handle) (s : TraceState)
    (found : List Handle × TraceState) : Prop where
  run : ∃ outputs, tr.Takes wave s.table (List.replicate n .empty) found.2.table outputs ∧
    found.1 = outputs.flatMap (·.reached.toList) ∧ found.2.tally = outputs.foldl Tally.add s.tally
  fresh : found.2.outputs = List.replicate n .empty

/-- Outputs that no task has used add nothing. -/
theorem foldl_add_replicate (n : Nat) (tally : Tally) :
    (List.replicate n TaskOutput.empty).foldl Tally.add tally = tally := by
  induction n with
  | zero => rfl
  | succ n ih =>
    have hone : tally.add .empty = tally := by simp [Tally.add, TaskOutput.empty]
    rw [List.replicate_succ, List.foldl_cons, hone, ih]

theorem flatMap_replicate_empty (n : Nat) :
    (List.replicate n TaskOutput.empty).flatMap (·.reached.toList) = [] := by
  simp [List.flatMap_eq_nil_iff, TaskOutput.empty]

theorem took_of_serialWave {s : TraceState} {found : List Handle × TraceState}
    (hfresh : s.outputs = List.replicate n .empty) (hok : tr.serialWave wave s = .ok found) :
    tr.Took n wave s found := by
  obtain ⟨output, rest, m, houtputs, hrun, rfl⟩ := serialWave_ok hok
  rw [hfresh] at houtputs
  cases n with
  | zero => cases houtputs
  | succ n =>
    cases houtputs
    have hget : (.empty :: List.replicate n .empty : List TaskOutput)[0]? = some .empty := rfl
    have htakes := takes_of_runTask hget hrun
    refine ⟨⟨_, htakes, ?_, ?_⟩, rfl⟩
    · rw [List.set_cons_zero, List.flatMap_cons, flatMap_replicate_empty, List.append_nil]
    · rw [List.set_cons_zero, List.foldl_cons, foldl_add_replicate]

theorem took_of_batchedWave {workers least : Nat} (hleast : 0 < least) {s : TraceState}
    {found : List Handle × TraceState} (hfresh : s.outputs = List.replicate n .empty)
    (hok : tr.batchedWave workers least wave s = .ok found) : tr.Took n wave s found := by
  unfold batchedWave at hok
  simp only at hok
  split at hok
  · cases hok
  rename_i hout
  rw [Nat.not_lt] at hout
  have hbatch := batchSize_ne_zero wave.length workers s.outputs.length hleast
  generalize hb : batchSize wave.length workers s.outputs.length least = b at *
  generalize hk : taskCount wave.length b = k at *
  obtain ⟨⟨done, t, pool⟩, hrun, hok⟩ := except_bind_ok hok
  cases hok
  have hlen : (chunks b wave).length = k := (length_chunks hbatch wave).trans hk
  have htake : s.outputs.take k = List.replicate k .empty := by
    rw [hfresh, List.take_replicate, Nat.min_eq_left]
    simpa [hfresh] using hout
  have hdrop : s.outputs.drop k = List.replicate (n - k) .empty := by
    rw [hfresh, List.drop_replicate]
  have hkn : k ≤ n := by simpa [hfresh] using hout
  rw [htake] at hrun
  have htakes := takes_of_runTasks [] (List.replicate (n - k) .empty)
    (fun p hp => List.eq_of_mem_replicate (List.of_mem_zip hp).1) hrun
  have hdone := length_of_runTasks hrun
  rw [List.length_zip, List.length_replicate, hlen, Nat.min_self] at hdone
  rw [List.map_fst_zip (by simp [hlen]), List.flatMap_def, List.map_snd_zip (by simp [hlen]),
    flatten_chunks hbatch, List.nil_append, List.nil_append, List.replicate_append_replicate,
    Nat.add_sub_cancel' hkn] at htakes
  refine ⟨⟨_, htakes, ?_, ?_⟩, ?_⟩
  · rw [List.flatMap_append, flatMap_replicate_empty, List.append_nil]
  · rw [List.foldl_append, foldl_add_replicate]
  · rw [hdrop]
    simp [List.map_const', hdone, List.replicate_append_replicate, Nat.add_sub_cancel' hkn]

/-- However a wave is run, it is a run of the wave. -/
theorem took_of_wave {plan : WavePlan} (hleast : 0 < plan.least) {s : TraceState}
    {found : List Handle × TraceState} (hfresh : s.outputs = List.replicate n .empty)
    (hok : tr.wave plan wave s = .ok found) :
    tr.Took n wave { s with tally := { s.tally with waves := s.tally.waves + 1 } } found := by
  unfold Tracer.wave at hok
  simp only at hok
  split at hok
  · exact took_of_serialWave hfresh hok
  · obtain ⟨enough, -, hok⟩ := except_bind_ok hok
    split at hok
    · exact took_of_batchedWave hleast hfresh hok
    · exact took_of_serialWave hfresh hok

theorem floods_of_waves {plan : WavePlan} (hleast : 0 < plan.least) (fuel : Nat)
    {wave : List Handle} {s s' : TraceState} (hfresh : s.outputs = List.replicate n .empty)
    (hok : tr.waves plan fuel wave s = .ok s') :
    tr.Floods wave s.table s.tally s'.table s'.tally := by
  induction fuel, wave, s using waves.induct with
  | case1 fuel s =>
    rw [waves] at hok
    cases hok
    exact .done _ _
  | case2 h rest s =>
    rw [waves] at hok
    cases hok
  | case3 fuel wave s hne ih =>
    rw [waves] at hok
    · obtain ⟨⟨next, s₁⟩, hwave, hok⟩ := except_bind_ok hok
      obtain ⟨⟨outputs, htakes, hnext, htally⟩, hfresh'⟩ := took_of_wave hleast hfresh hwave
      dsimp only at htakes hnext htally hfresh'
      have hrest := ih next s₁ hfresh' hok
      dsimp only at hrest
      subst hnext
      rw [htally] at hrest
      exact .next hne htakes (.refl _) hrest
    · exact hne

/-- A trace is a run of waves. -/
theorem floods_of_trace {plan : WavePlan} (hleast : 0 < plan.least) {frontier : List Handle}
    {tally : Tally} {s' : TraceState} (hok : tr.trace plan frontier t pool tally = .ok s') :
    tr.Floods frontier t tally s'.table s'.tally :=
  floods_of_waves (n := plan.workers.getD 1) hleast _ rfl hok

end Tracer

namespace Clusters

variable {s : Schema} {t : Table} {cs : Clusters}

/-- Dissolving clusters in the order of a list. -/
theorem scatters_of_foldlM {roots : List Handle} : ∀ {found last : List Handle × Table × Clusters},
    roots.foldlM (dissolveInto s) found = .ok last → Scatters s roots found last := by
  induction roots with
  | nil =>
    intro found last hok
    cases hok
    exact .done (.refl _)
  | cons r rest ih =>
    intro found last hok
    rw [List.foldlM_cons] at hok
    obtain ⟨next, hnext, hok⟩ := except_bind_ok hok
    exact .next (.refl _) (.refl _) hnext (ih hok)

theorem scatters_of_dissolveOutlived {found : Nat × List Handle × Table × Clusters}
    (hok : cs.dissolveOutlived s t = .ok found) :
    found.1 = ((cs.list.filter (outlived t)).map (·.root)).length ∧
      Scatters s ((cs.list.filter (outlived t)).map (·.root)) ([], t, cs) found.2 := by
  unfold dissolveOutlived at hok
  obtain ⟨last, hlast, hok⟩ := except_bind_ok hok
  cases hok
  exact ⟨rfl, scatters_of_foldlM hlast⟩

/-- Dissolving without listing the survivors does the same. -/
theorem foldlM_dissolveInto {roots : List Handle} : ∀ {t t' : Table} {cs cs' : Clusters}
    (survivors : List Handle),
    roots.foldlM (fun (found : Table × Clusters) root => do
      return (← found.2.dissolve s found.1 root).2) (t, cs) = .ok (t', cs') →
      ∃ survivors', roots.foldlM (dissolveInto s) (survivors, t, cs) = .ok (survivors', t', cs') := by
  induction roots with
  | nil =>
    intro t t' cs cs' survivors hok
    cases hok
    exact ⟨survivors, rfl⟩
  | cons r rest ih =>
    intro t t' cs cs' survivors hok
    rw [List.foldlM_cons] at hok
    obtain ⟨⟨t₁, cs₁⟩, hnext, hok⟩ := except_bind_ok hok
    obtain ⟨⟨c?, t₂, cs₂⟩, hdissolve, hnext⟩ := except_bind_ok hnext
    cases hnext
    have hinto : ∃ more, dissolveInto s (survivors, t, cs) r = .ok (more, t₁, cs₁) := by
      unfold dissolveInto
      dsimp only at hdissolve ⊢
      rw [hdissolve]
      cases c? with
      | none => exact ⟨survivors, rfl⟩
      | some c => exact ⟨_, rfl⟩
    obtain ⟨more, hmore⟩ := hinto
    obtain ⟨last, hlast⟩ := ih more hok
    refine ⟨last, ?_⟩
    rw [List.foldlM_cons, hmore]
    exact hlast

theorem scatters_of_dissolveUnreachable {n : Nat} {t' : Table} {cs' : Clusters}
    (hok : cs.dissolveUnreachable s t = .ok (n, t', cs')) :
    n = ((cs.list.filter fun c => t.isUnreachable c.root).map (·.root)).length ∧
      ∃ survivors, Scatters s ((cs.list.filter fun c => t.isUnreachable c.root).map (·.root))
        ([], t, cs) (survivors, t', cs') := by
  unfold dissolveUnreachable at hok
  obtain ⟨⟨t₁, cs₁⟩, hlast, hok⟩ := except_bind_ok hok
  cases hok
  obtain ⟨survivors, hsurvivors⟩ := foldlM_dissolveInto [] hlast
  exact ⟨rfl, survivors, scatters_of_foldlM hsurvivors⟩

end Clusters

/-- The rounds of a mark are a run of rounds. -/
theorem marksRounds_of_markRounds {s : Schema} {plan : MarkPlan} (hleast : 0 < plan.waves.least)
    (fuel : Nat) : ∀ {frontier : List Handle} {r r' : MarkResult},
      markRounds s plan fuel frontier r = .ok r' →
        MarksRounds s plan.memberKeepsCluster frontier
          ⟨r.table, r.clusters, ⟨r.weak, r.scanned, r.waves⟩, r.dissolved⟩
          ⟨r'.table, r'.clusters, ⟨r'.weak, r'.scanned, r'.waves⟩, r'.dissolved⟩ ∧
        r'.considered = r.considered := by
  induction fuel with
  | zero =>
    intro frontier r r' hok
    cases hok
  | succ fuel ih =>
    intro frontier r r' hok
    rw [markRounds] at hok
    obtain ⟨traced, htrace, hok⟩ := except_bind_ok hok
    obtain ⟨⟨count, survivors, t, cs⟩, hdissolve, hok⟩ := except_bind_ok hok
    have hfloods := Tracer.floods_of_trace hleast htrace
    obtain ⟨hcount, hscatters⟩ := Clusters.scatters_of_dissolveOutlived hdissolve
    dsimp only at hcount hscatters hok
    subst hcount
    split at hok
    · rename_i hempty
      rw [List.isEmpty_iff] at hempty
      subst hempty
      cases hok
      exact ⟨.last (.refl _) hfloods (.refl _) hscatters, rfl⟩
    · rename_i hsome
      obtain ⟨hrest, hconsidered⟩ := ih hok
      refine ⟨.next (.refl _) hfloods (.refl _) hscatters (fun he => ?_) hrest, hconsidered⟩
      exact hsome (List.isEmpty_iff.mpr he)

namespace Collector

variable {c d : Collector} {keep : Flags} {stats : Statistics}

/-- What a search for the dead finds is one of the outcomes. -/
theorem finds_of_condemn (hok : c.condemn keep = .ok (stats, d)) :
    c.Finds keep stats d.table d.clusters ∧ d.purge = c.purge.request stats.considered ∧
      d.journal = c.journal ∧ d.schema = c.schema := by
  obtain ⟨hverify, r, hmark, unhashed, t₁, cs₁, hdissolve, t₂, cleared, hclear, rfl, rfl⟩ :=
    condemn_ok hok
  obtain ⟨seeds, considered, t, hseed, hrounds, -⟩ := mark_ok hmark
  obtain ⟨hmarked, hconsidered⟩ := marksRounds_of_markRounds (c.markPlan_least keep) _ hrounds
  obtain ⟨hcount, survivors, hscatters⟩ := Clusters.scatters_of_dissolveUnreachable hdissolve
  dsimp only at hmarked hconsidered
  subst hcount
  refine ⟨?_, rfl, rfl, rfl⟩
  rw [hconsidered]
  exact .intro r.parallel (.refl _) hverify hseed hmarked (.refl _) hscatters (.refl _) hclear

/-- What a collection does is one of its runs. -/
theorem collects_of_collect {full : Bool} (hok : c.collect keep full = .ok (stats, d)) :
    c.Collects keep full stats d.pending d.clusters := by
  unfold collect at hok
  obtain ⟨⟨n, b⟩, hfinish, hok⟩ := except_bind_ok hok
  obtain ⟨⟨found, m⟩, hcondemn, hok⟩ := except_bind_ok hok
  obtain ⟨hfinds, hpurge, hjournal, hschema⟩ := finds_of_condemn hcondemn
  have hpending : m.pending = ⟨b.purge.request found.considered, m.table, b.journal⟩ := by
    rw [pending, hpurge, hjournal]
  cases full with
  | true =>
    obtain ⟨⟨freed, e⟩, hfreed, hok⟩ := except_bind_ok hok
    cases hok
    obtain ⟨progress, hcall, rfl⟩ := finishPurge_ok hfreed
    obtain ⟨p, hrun, rfl⟩ := runPurge_ok hcall
    rw [hpending, hschema] at hrun
    exact .intro hfinish hfinds ⟨progress, hrun, rfl⟩
  | false =>
    cases hok
    exact .intro hfinish hfinds ⟨hpending, rfl⟩

end Collector

end TracingHeap

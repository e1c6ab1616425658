import TracingHeap.Proofs.Mark.Run
import TracingHeap.Proofs.Mark.FaultSources

namespace TracingHeap

theorem le_mul_ceilDiv {n : Nat} (hn : 0 < n) (length : Nat) : length ≤ n * ceilDiv length n := by
  unfold ceilDiv
  have := Nat.lt_mul_div_succ (length + n - 1) hn
  rw [Nat.mul_add] at this
  omega

/-- There are as many task outputs as batches, or more. -/
theorem taskCount_le (length workers : Nat) {outputs least : Nat} (hout : 0 < outputs)
    (hleast : 0 < least) :
    taskCount length (batchSize length workers outputs least) ≤ outputs := by
  have hbatch := Nat.pos_of_ne_zero (batchSize_ne_zero length workers outputs hleast)
  have hcover : length ≤ outputs * batchSize length workers outputs least :=
    Nat.le_trans (le_mul_ceilDiv hout length) (Nat.mul_le_mul_left _ (Nat.le_max_right ..))
  generalize batchSize length workers outputs least = batch at *
  unfold taskCount ceilDiv
  rw [Nat.div_le_iff_le_mul_add_pred hbatch, Nat.mul_comm]
  omega

def WavePlan.Fits (plan : WavePlan) : Prop := 0 < plan.least ∧ 2 * plan.least < sizeLimit

structure WavePlan.Averts (plan : WavePlan) (bad : Fault → Prop) : Prop where
  least : 0 < plan.least
  size : ∀ f, mulSizes 2 plan.least = .error f → ¬ bad f

theorem WavePlan.Fits.averts {plan : WavePlan} (hplan : plan.Fits) (bad : Fault → Prop) :
    plan.Averts bad := by
  refine ⟨hplan.1, fun f hf => ?_⟩
  rw [mulSizes, if_pos hplan.2] at hf
  cases hf

namespace Tracer

variable {bad : Fault → Prop} {tr : Tracer} {m : Marking} {plan : WavePlan}

theorem process_spends (hs : tr.schema.Averts bad) (ht : m.table.Tidy) (h : Handle) :
    Ends bad (tr.process m h) m.Spends := by
  unfold process
  split
  · exact hs.broken _ trivial
  · rename_i o _
    have hcounted := Marking.Spends.countScanned m
    dsimp only
    split
    · exact (expand_spends hs h _).mono fun m' hm' => hcounted.trans hm'
    · split
      · exact (reach_spends hs h _).mono fun m' hm' => hcounted.trans hm'
      · refine (hs.walk o).bind fun w _ hw => hw.foldM hs.broken (fun m' v hm' => ?_) hcounted
        exact (visit_spends hs (hm'.tidy ht) o v).mono fun m'' hm'' => hm'.trans hm''

structure Done (m m' : Marking) : Prop where
  flagged : m'.table.flaggedCount + m'.output.reached.size ≤ m.table.flaggedCount
  inUse : m'.pool.inUse = m.pool.inUse + 1
  tidy : m'.table.Tidy

theorem runTask_ends (hs : tr.schema.Averts bad) (ht : m.table.Tidy) (batch : List Handle) :
    Ends bad (tr.runTask m batch) (Done m) := by
  unfold runTask
  refine (Ends.foldlM (fun _ m' => Marking.Spends { m with
    pool := m.pool.acquire, output := { m.output with reached := #[] } } m') (fun h _ m' hm' => ?_)
    (.refl _)).mono fun m' hm' => ⟨hm'.reached, hm'.inUse, hm'.tidy ht⟩
  exact (process_spends hs (hm'.tidy ht) h).mono fun m'' hm'' => hm'.trans hm''

structure Moved (s : TraceState) (found : List Handle × TraceState) : Prop where
  flagged : found.2.table.flaggedCount + found.1.length ≤ s.table.flaggedCount
  inUse : found.2.pool.inUse = s.pool.inUse + 1
  tidy : found.2.table.Tidy
  outputs : found.2.outputs.length = s.outputs.length

theorem serialWave_ends (hs : tr.schema.Averts bad) (wave : List Handle) {s : TraceState}
    (ht : s.table.Tidy) (hout : 0 < s.outputs.length) :
    Ends bad (tr.serialWave wave s) (Moved s) := by
  unfold serialWave
  split
  · rename_i hnil
    rw [hnil] at hout
    cases hout
  · rename_i output rest hcons
    refine (runTask_ends hs (m := ⟨s.table, s.pool, output⟩) ht wave).bind fun m' _ hm' =>
      ⟨?_, hm'.inUse, hm'.tidy, ?_⟩
    · exact hm'.flagged
    · rw [hcons]
      rfl

/-- The tasks of a wave, one after the other. -/
theorem runTasks_ends (hs : tr.schema.Averts bad) (work : List (TaskOutput × List Handle)) :
    ∀ (table : Table) (pool : ScratchPool), table.Tidy →
      Ends bad (tr.runTasks work table pool) fun found =>
        found.1.length = work.length ∧ found.2.1.Tidy ∧
          found.2.1.flaggedCount + (found.1.flatMap (·.reached.toList)).length ≤
            table.flaggedCount ∧ found.2.2.inUse = pool.inUse + work.length := by
  induction work with
  | nil =>
    intro table pool ht
    exact ⟨rfl, ht, Nat.le_refl _, (Int.add_zero _).symm⟩
  | cons job others ih =>
    intro table pool ht
    obtain ⟨output, batch⟩ := job
    rw [runTasks]
    refine (runTask_ends hs (m := ⟨table, pool, output⟩) ht batch).bind fun m' _ hm' => ?_
    refine (ih m'.table m'.pool hm'.tidy).bind ?_
    rintro ⟨done, table', pool'⟩ _ ⟨hlength, htidy, hflagged, hinUse⟩
    have hfirst := hm'.flagged
    have hlist := hm'.inUse
    dsimp only at hlength htidy hflagged hinUse hfirst hlist
    refine ⟨congrArg Nat.succ hlength, htidy, ?_, ?_⟩
    · rw [List.flatMap_cons, List.length_append, Array.length_toList]
      dsimp only
      omega
    · rw [List.length_cons]
      change pool'.inUse = _
      omega

theorem inUse_foldl_release {α : Type} (done : List α) (pool : ScratchPool) :
    (done.foldl (fun p _ => p.release) pool).inUse = pool.inUse - done.length := by
  induction done generalizing pool with
  | nil => simp
  | cons a rest ih =>
    rw [List.foldl_cons, ih, List.length_cons]
    simp only [ScratchPool.release]
    omega

theorem batchedWave_ends (hs : tr.schema.Averts bad) (workers : Nat) {least : Nat} (hleast : 0 < least)
    (wave : List Handle) {s : TraceState} (ht : s.table.Tidy) (hout : 0 < s.outputs.length) :
    Ends bad (tr.batchedWave workers least wave s) (Moved s) := by
  have htasks := taskCount_le wave.length workers hout hleast
  have hbatch := batchSize_ne_zero wave.length workers s.outputs.length hleast
  unfold batchedWave
  dsimp only
  generalize batchSize wave.length workers s.outputs.length least = batch at *
  rw [if_neg (Nat.not_lt.mpr htasks)]
  have hwork : ((s.outputs.take (taskCount wave.length batch)).zip (chunks batch wave)).length =
      taskCount wave.length batch := by
    rw [List.length_zip, List.length_take, length_chunks hbatch]
    omega
  refine (runTasks_ends hs _ s.table s.pool ht).bind ?_
  rintro ⟨done, table, pool⟩ _ ⟨hlength, htidy, hflagged, hinUse⟩
  dsimp only at hlength htidy hflagged hinUse
  rw [hwork] at hlength hinUse
  refine ⟨hflagged, ?_, htidy, ?_⟩
  · change (done.foldl (fun p _ => p.release) pool.acquire).inUse = _
    rw [inUse_foldl_release, hlength]
    simp only [ScratchPool.acquire]
    omega
  · change (done.map (fun _ => TaskOutput.empty) ++ s.outputs.drop _).length = _
    rw [List.length_append, List.length_map, List.length_drop, hlength]
    omega

theorem wave_ends (hs : tr.schema.Averts bad) (hplan : plan.Averts bad) (current : List Handle)
    {s : TraceState} (ht : s.table.Tidy) (hout : 0 < s.outputs.length) :
    Ends bad (tr.wave plan current s) (Moved s) := by
  let counted : TraceState := { s with tally := { s.tally with waves := s.tally.waves + 1 } }
  have hmoved : ∀ found, Moved counted found → Moved s found :=
    fun _ h => ⟨h.flagged, h.inUse, h.tidy, h.outputs⟩
  have hserial := (serialWave_ends (s := counted) hs current ht hout).mono hmoved
  unfold wave
  split
  · exact hserial
  · rename_i workers _
    cases hsize : mulSizes 2 plan.least with
    | error f => exact hplan.size f hsize
    | ok enough =>
      change Ends bad (if enough ≤ current.length then _ else _) _
      split
      · exact (batchedWave_ends (s := counted) hs workers hplan.least current ht hout).mono hmoved
      · exact hserial

/-- Each wave after the first has claimed its objects, so the objects still flagged bound the waves to
come. -/
theorem waves_ends (hs : tr.schema.Averts bad) (hplan : plan.Averts bad) (fuel : Nat)
    (current : List Handle) (s : TraceState) (ht : s.table.Tidy) (hout : 0 < s.outputs.length)
    (hfuel : current ≠ [] → s.table.flaggedCount < fuel) :
    Ends bad (tr.waves plan fuel current s) fun s' =>
      s'.table.Tidy ∧ s'.pool.inUse = s.pool.inUse - 1 := by
  induction fuel, current, s using waves.induct with
  | case1 fuel s =>
    rw [waves]
    exact ⟨ht, rfl⟩
  | case2 h rest s => exact absurd (hfuel (List.cons_ne_nil h rest)) (Nat.not_lt_zero _)
  | case3 fuel current s hne ih =>
    rw [waves]
    · refine (wave_ends hs hplan _ ht hout).bind ?_
      rintro ⟨next, s₁⟩ _ ⟨hflagged, hinUse, htidy, houtputs⟩
      dsimp only at hflagged hinUse htidy houtputs
      have hbound := hfuel hne
      have hnext : next ≠ [] → s₁.table.flaggedCount < fuel := by
        intro hne
        have := List.length_pos_iff.mpr hne
        omega
      refine (ih next s₁ htidy (by rw [houtputs]; exact hout) hnext).mono fun s' hs' =>
        ⟨hs'.1, hs'.2.trans ?_⟩
      simp only [ScratchPool.release]
      omega
    · exact hne

theorem trace_ends (hs : tr.schema.Averts bad) (hplan : plan.Averts bad) (frontier : List Handle)
    {table : Table} (ht : table.Tidy) (pool : ScratchPool) (tally : Tally)
    (hworkers : plan.workers ≠ some 0) :
    Ends bad (tr.trace plan frontier table pool tally) fun s' =>
      s'.table.Tidy ∧ s'.pool.inUse = pool.inUse - 1 := by
  unfold trace
  refine waves_ends hs hplan _ frontier ⟨table, pool, _, tally⟩ ht ?_ fun _ => ?_
  · rw [List.length_replicate]
    cases hw : plan.workers with
    | none => exact Nat.zero_lt_one
    | some n => exact Nat.pos_of_ne_zero fun h => hworkers (hw.trans (congrArg some h))
  · exact Nat.lt_succ_of_le table.flaggedCount_le

end Tracer

section

variable {bad : Fault → Prop} {s : Schema} {plan : MarkPlan}

/-- Each round after the first has dissolved a cluster, so the clusters left bound the rounds to
come. -/
theorem markRounds_ends (hs : s.Averts bad) (hplan : plan.waves.Averts bad)
    (hworkers : plan.waves.workers ≠ some 0) (fuel : Nat) :
    ∀ (frontier : List Handle) (r : MarkResult), r.table.Tidy → r.clusters.size < fuel →
      Ends bad (markRounds s plan fuel frontier r) fun r' =>
        r'.pool.inUse = r.pool.inUse - 1 := by
  induction fuel with
  | zero => exact fun _ _ _ hfuel => absurd hfuel (Nat.not_lt_zero _)
  | succ fuel ih =>
    intro frontier r ht hfuel
    rw [markRounds]
    let tr : Tracer := ⟨s, r.clusters, plan.memberKeepsCluster⟩
    have hstreamed : tr.schema.Averts bad := hs
    have htrace := tr.trace_ends hstreamed hplan
      frontier ht r.pool ⟨r.weak, r.scanned, r.waves⟩ hworkers
    refine htrace.bind fun traced _ htraced => ?_
    obtain ⟨htidy, hinUse⟩ := htraced
    refine (dissolveOutlived_ends hs htidy r.clusters).bind ?_
    rintro ⟨count, survivors, table, clusters⟩ _ ⟨htidy', hless⟩
    dsimp only at htidy' hless ⊢
    split
    · change traced.pool.inUse + 1 - 1 = _
      omega
    · rename_i hne
      have hsize : clusters.size < r.clusters.size :=
        hless fun hnil => hne (by rw [hnil]; rfl)
      refine (ih survivors _ htidy' (by dsimp only; omega)).mono fun r' hr' => hr'.trans ?_
      change traced.pool.inUse + 1 - 1 = _
      omega

/-- The objects left to be seeded are listed once each, and none of them is flagged. -/
structure Unseeded (left : List Handle) (t : Table) : Prop where
  tidy : t.Tidy
  distinct : left.Nodup
  awake : ∀ h ∈ left, ∀ o, t.get? h = some o → o.isUnreachable = false

/-- Whatever becomes of the first object, the others are still to be seeded. -/
theorem Unseeded.rest {h : Handle} {left : List Handle} {t t' : Table} (u : Unseeded (h :: left) t)
    (ht : t'.Tidy) (hothers : ∀ g, g ≠ h → t'.get? g = t.get? g) : Unseeded left t' := by
  obtain ⟨hnot, hdist⟩ := List.nodup_cons.mp u.distinct
  refine ⟨ht, hdist, fun g hg o ho => ?_⟩
  rw [hothers g fun he => hnot (he ▸ hg)] at ho
  exact u.awake g (List.mem_cons_of_mem _ hg) o ho

theorem seedObject_ends (hb : ∀ f : Fault, f.Broken → ¬ bad f) {keep : Flags} {h : Handle} {left : List Handle}
    {found : Array Handle × Table} (u : Unseeded (h :: left) found.2) :
    Ends bad (seedObject keep found h) fun next => Unseeded left next.2 := by
  obtain ⟨seeds, t⟩ := found
  cases ho : t.get? h with
  | none =>
    unfold seedObject
    simp only [ho]
    exact u.rest u.tidy fun _ _ => rfl
  | some o =>
    rw [seedObject_eq ho (u.awake h (List.mem_cons_self ..) o ho)]
    split
    · exact hb _ trivial
    · refine u.rest (u.tidy.seedAt h o keep) fun g hne => ?_
      rw [Table.get?_seedAt ho, if_neg hne]

/-- Where no object is flagged, each can be seeded. -/
theorem seed_ends (hb : ∀ f : Fault, f.Broken → ¬ bad f) {t : Table} (ht : t.Tidy) (keep : Flags)
    (hfresh : ∀ h o, t.get? h = some o → t.isPermanent h = false → o.isUnreachable = false) :
    Ends bad (seed keep t) fun found => found.2.2.Tidy := by
  have hstart : Unseeded (t.collectable.map (·.handle)) t :=
    ⟨ht, ht.nodup_collectable, fun h hh o ho => hfresh h o ho (ht.mem_handles.mp hh).2⟩
  have hfold := Ends.foldlM (f := seedObject (keep.union Flags.keep))
    (b := ((#[], t) : Array Handle × Table)) (fun left found => Unseeded left found.2)
    (fun h left found u => seedObject_ends hb u) hstart
  unfold seed
  exact hfold.bind fun found _ u => u.tidy

/-- A mark that starts with all lists in the pool ends with all of them there. -/
theorem mark_ends (hs : s.Averts bad) (hplan : plan.waves.Averts bad)
    (hworkers : plan.waves.workers ≠ some 0) {t : Table} (ht : t.Tidy) (cs : Clusters)
    {pool : ScratchPool} (hpool : pool.inUse = 0)
    (hfresh : ∀ h o, t.get? h = some o → t.isPermanent h = false → o.isUnreachable = false) :
    Ends bad (mark s plan t cs pool) fun r => r.pool.inUse = 0 := by
  unfold mark
  refine (seed_ends hs.broken ht plan.keep hfresh).bind ?_
  rintro ⟨seeds, considered, t'⟩ _ htidy
  refine (markRounds_ends hs hplan hworkers (cs.size + 1) seeds
    ⟨t', cs, pool.acquire, #[], considered, 0, 0, 0, plan.waves.workers.isSome⟩ htidy
    (Nat.lt_succ_self _)).bind fun r _ hr => ?_
  have hbalanced : r.pool.inUse = 0 := by
    rw [hr]
    simp only [ScratchPool.acquire]
    omega
  have hcheck : r.pool.isBalanced = true := by
    rw [ScratchPool.isBalanced, hbalanced]
    rfl
  rw [hcheck]
  exact hbalanced

end

end TracingHeap

import TracingHeap.Proofs.Trace.References
import TracingHeap.Marking.Wave

namespace TracingHeap

theorem chunks_of_ne {α : Type} {n : Nat} {l : List α} (hn : n ≠ 0) (hl : l ≠ []) :
    chunks n l = l.take n :: chunks n (l.drop n) := by
  rw [chunks]
  simp [hn, hl]

theorem flatten_chunks {α : Type} {n : Nat} (hn : n ≠ 0) (l : List α) :
    (chunks n l).flatten = l := by
  induction hk : l.length using Nat.strongRecOn generalizing l with
  | _ k ih =>
    by_cases hl : l = []
    · subst hl
      rw [chunks]
      simp
    · have hpos := List.length_pos_iff.mpr hl
      have hlen : (l.drop n).length < k := by
        rw [List.length_drop]
        omega
      rw [chunks_of_ne hn hl, List.flatten_cons, ih _ hlen _ rfl, List.take_append_drop]

theorem length_chunks {α : Type} {n : Nat} (hn : n ≠ 0) (l : List α) :
    (chunks n l).length = taskCount l.length n := by
  unfold taskCount ceilDiv
  induction hk : l.length using Nat.strongRecOn generalizing l with
  | _ k ih =>
    by_cases hl : l = []
    · subst hl
      subst hk
      rw [chunks]
      simp only [List.length_nil, or_true, dif_pos, Nat.zero_add]
      rw [Nat.div_eq_of_lt (by omega)]
    · have hpos := List.length_pos_iff.mpr hl
      have hlen : (l.drop n).length < k := by
        rw [List.length_drop]
        omega
      rw [chunks_of_ne hn hl, List.length_cons, ih _ hlen _ rfl, List.length_drop, hk]
      by_cases hle : n ≤ k
      · rw [show k + n - 1 = k - n + n - 1 + n by omega, Nat.add_div_right _ (by omega)]
      · rw [show k - n + n - 1 = n - 1 by omega, Nat.div_eq_of_lt (by omega),
          show k + n - 1 = k - 1 + n by omega, Nat.add_div_right _ (by omega),
          Nat.div_eq_of_lt (by omega)]

theorem batchSize_ne_zero (length workers outputs : Nat) {least : Nat} (h : 0 < least) :
    batchSize length workers outputs least ≠ 0 := by
  unfold batchSize
  omega

/-- Every entry of a wave is in the batch of some task. -/
theorem mem_batches {α β : Type} {n : Nat} (hn : n ≠ 0) {outputs : List β} {l : List α}
    (hout : taskCount l.length n ≤ outputs.length) {a : α} (ha : a ∈ l) :
    ∃ p ∈ (outputs.take (taskCount l.length n)).zip (chunks n l), a ∈ p.2 := by
  rw [← flatten_chunks hn l] at ha
  obtain ⟨batch, hbatch, ha⟩ := List.mem_flatten.mp ha
  have hlen : (chunks n l).length ≤ (outputs.take (taskCount l.length n)).length := by
    rw [length_chunks hn, List.length_take]
    omega
  rw [← List.map_snd_zip hlen] at hbatch
  obtain ⟨p, hp, rfl⟩ := List.mem_map.mp hbatch
  exact ⟨p, hp, ha⟩

theorem mem_weak_foldl_add {done : List TaskOutput} {a : Tally} {x : Site} :
    x ∈ (done.foldl Tally.add a).weak ↔ x ∈ a.weak ∨ ∃ o ∈ done, x ∈ o.weak := by
  induction done generalizing a with
  | nil => simp
  | cons o rest ih =>
    rw [List.foldl_cons, ih]
    simp [Tally.add, or_assoc]

def Idle (outputs : List TaskOutput) : Prop := ∀ o ∈ outputs, o.weak = #[]

namespace Tracer

variable {tr : Tracer} {good rest gray : Handle → Prop} {kept : Site → Prop} {m : Marking}

abbrev Between (tr : Tracer) (good gray : Handle → Prop) (s : TraceState) : Prop :=
  Tracing tr.schema tr.clusters tr.memberKeepsCluster good gray (· ∈ s.tally.weak) s.table

/-- A task looks at every object of its batch. The induction is on the objects left. -/
theorem runTask_spec {batch : List Handle}
    (p : Tracing tr.schema tr.clusters tr.memberKeepsCluster good (Pending batch rest)
      (fun x => kept x ∨ x ∈ m.output.weak) m.table) :
    Yields (tr.runTask m batch) fun m' => Pass tr good rest kept m' ∧
      m.table.Advances tr.schema m'.table ∧ ∀ h ∈ batch, m'.table.Marked h := by
  let start : Marking := { m with pool := m.pool.acquire, output := { m.output with reached := #[] } }
  have hstart : Pass tr good (Pending batch rest) kept start :=
    Tracing.congr p fun x => by simp [start]
  have hfold : Yields (batch.foldlM tr.process start) _ := Ends.foldlM_each
    (I := fun left m' => Pass tr good (Pending left rest) kept m' ∧ start.Grows tr.schema m')
    (P := fun h m' => m'.table.Marked h)
    (fun h _ left m' hI => by
      have hpass : Pass tr good (fun x => x = h ∨ Pending left rest x) kept m' :=
        Tracing.congr hI.1 fun x => by simp [Pending, or_assoc]
      refine (process_spec hpass).mono fun m₁ h₁ => ?_
      exact ⟨⟨h₁.1, hI.2.trans h₁.2.1⟩, h₁.2.2, fun x hx => h₁.2.1.table.marked hx⟩)
    ⟨hstart, .refl _⟩
  refine hfold.mono fun m' hm' => ⟨?_, hm'.1.2.table, hm'.2⟩
  exact Tracing.congr hm'.1.1 fun x => by simp [Pending]

/-- A wave taken by one task is the run of that task. -/
theorem serialWave_ok {wave : List Handle} {s : TraceState} {found : List Handle × TraceState}
    (hok : tr.serialWave wave s = .ok found) : ∃ output rest m, s.outputs = output :: rest ∧
      tr.runTask ⟨s.table, s.pool, output⟩ wave = .ok m ∧
      found = (m.output.reached.toList, ⟨m.table, m.pool, .empty :: rest, s.tally.add m.output⟩) := by
  unfold serialWave at hok
  split at hok
  · cases hok
  · rename_i output rest houtputs
    obtain ⟨m, hrun, hok⟩ := except_bind_ok hok
    cases hok
    exact ⟨output, rest, m, houtputs, hrun, rfl⟩

/-- A wave taken by one task. -/
theorem serialWave_spec {wave : List Handle} {s : TraceState}
    (p : Between tr good (· ∈ wave) s) (hidle : Idle s.outputs) :
    Yields (tr.serialWave wave s) fun found => Between tr good (· ∈ found.1) found.2 ∧
      Idle found.2.outputs ∧ s.table.Advances tr.schema found.2.table ∧
      ∀ h ∈ wave, found.2.table.Marked h := by
  unfold serialWave
  split
  · exact id
  · rename_i output others hout
    have hweak : output.weak = #[] := hidle output (by rw [hout]; exact List.mem_cons_self ..)
    have p' : Tracing tr.schema tr.clusters tr.memberKeepsCluster good
        (Pending wave fun _ => False)
        (fun x => x ∈ s.tally.weak ∨ x ∈ (Marking.mk s.table s.pool output).output.weak)
        (Marking.mk s.table s.pool output).table := by
      refine (Tracing.remember p fun x hx => .inl hx).congr fun x => ?_
      simp [Pending]
    refine (runTask_spec p').bind fun m' _ hm' => ⟨?_, ?_, hm'.2.1, hm'.2.2⟩
    · refine (Tracing.remember hm'.1 fun x hx => ?_).congr fun x => ?_
      · simpa [Tally.add] using hx
      · simp
    · intro o ho
      rcases List.mem_cons.mp ho with rfl | ho
      · rfl
      · exact hidle o (by rw [hout]; exact List.mem_cons_of_mem _ ho)

/-- The tasks of a wave, one after the other. The induction is on the tasks left: what the first
has claimed and written down waits elsewhere for the others. -/
theorem runTasks_spec (work : List (TaskOutput × List Handle)) : ∀ (rest : Handle → Prop)
    (kept : Site → Prop) (table : Table) (pool : ScratchPool), (∀ p ∈ work, p.1.weak = #[]) →
    Tracing tr.schema tr.clusters tr.memberKeepsCluster good
      (fun h => (∃ p ∈ work, h ∈ p.2) ∨ rest h) kept table →
    Yields (tr.runTasks work table pool) fun found =>
      Tracing tr.schema tr.clusters tr.memberKeepsCluster good
          (fun h => (∃ o ∈ found.1, h ∈ o.reached) ∨ rest h)
          (fun x => (∃ o ∈ found.1, x ∈ o.weak) ∨ kept x) found.2.1 ∧
        table.Advances tr.schema found.2.1 ∧ ∀ p ∈ work, ∀ h ∈ p.2, found.2.1.Marked h := by
  induction work with
  | nil =>
    intro rest kept table pool _ p
    refine ⟨(Tracing.remember p fun x hx => .inr hx).congr fun x => by simp, .refl _, ?_⟩
    intro p hp
    cases hp
  | cons job others ih =>
    intro rest kept table pool hidle p
    obtain ⟨output, batch⟩ := job
    have hweak : output.weak = #[] := hidle _ (List.mem_cons_self ..)
    have p' : Tracing tr.schema tr.clusters tr.memberKeepsCluster good
        (Pending batch fun h => (∃ p ∈ others, h ∈ p.2) ∨ rest h)
        (fun x => kept x ∨ x ∈ (Marking.mk table pool output).output.weak)
        (Marking.mk table pool output).table := by
      refine (Tracing.remember p fun x hx => .inl hx).congr fun x => ?_
      simp [Pending, or_assoc]
    refine (runTask_spec p').bind fun m' _ hm' => ?_
    have p'' : Tracing tr.schema tr.clusters tr.memberKeepsCluster good
        (fun h => (∃ p ∈ others, h ∈ p.2) ∨ (h ∈ m'.output.reached ∨ rest h))
        (fun x => kept x ∨ x ∈ m'.output.weak) m'.table := by
      refine Tracing.congr hm'.1 fun x => ?_
      rw [or_assoc, or_comm (a := rest x)]
    refine (ih _ _ m'.table m'.pool (fun p hp => hidle p (List.mem_cons_of_mem _ hp)) p'').bind
      fun found _ hfound => ⟨?_, hm'.2.1.trans hfound.2.1, ?_⟩
    · refine (Tracing.remember hfound.1 fun x hx => ?_).congr fun x => ?_
      · rcases hx with ⟨o, ho, hx⟩ | hx | hx
        · exact .inl ⟨o, List.mem_cons_of_mem _ ho, hx⟩
        · exact .inr hx
        · exact .inl ⟨m'.output, List.mem_cons_self .., hx⟩
      · simp only [List.mem_cons, exists_eq_or_imp, or_assoc]
        rw [or_left_comm]
    · intro p hp h hh
      rcases List.mem_cons.mp hp with rfl | hp
      · exact hfound.2.1.marked (hm'.2.2 h hh)
      · exact hfound.2.2 p hp h hh

/-- A wave cut into batches. -/
theorem batchedWave_spec {workers least : Nat} (hleast : 0 < least) {wave : List Handle}
    {s : TraceState} (p : Between tr good (· ∈ wave) s) (hidle : Idle s.outputs) :
    Yields (tr.batchedWave workers least wave s) fun found =>
      Between tr good (· ∈ found.1) found.2 ∧ Idle found.2.outputs ∧
        s.table.Advances tr.schema found.2.table ∧ ∀ h ∈ wave, found.2.table.Marked h := by
  unfold batchedWave
  simp only
  split
  · exact id
  · rename_i hout
    rw [Nat.not_lt] at hout
    have hbatch := batchSize_ne_zero wave.length workers s.outputs.length hleast
    generalize hn : batchSize wave.length workers s.outputs.length least = n at *
    have hcover : ∀ h ∈ wave, ∃ p ∈ (s.outputs.take (taskCount wave.length n)).zip
        (chunks n wave), h ∈ p.2 := fun h hh => mem_batches hbatch hout hh
    have hquiet : ∀ p ∈ (s.outputs.take (taskCount wave.length n)).zip (chunks n wave),
        p.1.weak = #[] := by
      rintro ⟨o, batch⟩ hp
      exact hidle o (List.mem_of_mem_take (List.of_mem_zip hp).1)
    have hback : ∀ p ∈ (s.outputs.take (taskCount wave.length n)).zip (chunks n wave),
        ∀ h ∈ p.2, h ∈ wave := by
      rintro ⟨o, batch⟩ hp h hh
      rw [← flatten_chunks hbatch wave]
      exact List.mem_flatten.mpr ⟨batch, (List.of_mem_zip hp).2, hh⟩
    have p' : Tracing tr.schema tr.clusters tr.memberKeepsCluster good
        (fun h => (∃ p ∈ (s.outputs.take (taskCount wave.length n)).zip (chunks n wave), h ∈ p.2)
          ∨ False) (· ∈ s.tally.weak) s.table := by
      refine Tracing.congr p fun h => ⟨fun hh => .inl (hcover h hh), ?_⟩
      rintro (⟨p, hp, hh⟩ | hf)
      · exact hback p hp h hh
      · exact hf.elim
    refine (runTasks_spec _ _ _ s.table s.pool hquiet p').bind fun found _ hfound => ⟨?_, ?_, ?_, ?_⟩
    · refine (Tracing.remember hfound.1 fun x hx => ?_).congr fun x => ?_
      · exact mem_weak_foldl_add.mpr hx.symm
      · simp
    · intro o ho
      rcases List.mem_append.mp ho with ho | ho
      · obtain ⟨_, _, rfl⟩ := List.mem_map.mp ho
        rfl
      · exact hidle o (List.mem_of_mem_drop ho)
    · exact hfound.2.1
    · intro h hh
      obtain ⟨p, hp, hm⟩ := hcover h hh
      exact hfound.2.2 p hp h hm

/-- However it is run, a wave looks at every object that waits. -/
theorem wave_spec {plan : WavePlan} (hleast : 0 < plan.least) {current : List Handle}
    {s : TraceState} (p : Between tr good (· ∈ current) s) (hidle : Idle s.outputs) :
    Yields (tr.wave plan current s) fun found => Between tr good (· ∈ found.1) found.2 ∧
      Idle found.2.outputs ∧ s.table.Advances tr.schema found.2.table ∧
      ∀ h ∈ current, found.2.table.Marked h := by
  unfold wave
  split
  · exact serialWave_spec p hidle
  · rename_i workers _
    cases hmul : mulSizes 2 plan.least with
    | error f => exact (mulSizes_error hmul).not_broken
    | ok enough =>
      simp only [bind, Except.bind]
      split
      · exact batchedWave_spec hleast p hidle
      · exact serialWave_spec p hidle

/-- Wave after wave, until nothing waits. -/
theorem waves_spec {plan : WavePlan} (hleast : 0 < plan.least) (fuel : Nat)
    (current : List Handle) (s : TraceState) (p : Between tr good (· ∈ current) s)
    (hidle : Idle s.outputs) : Yields (tr.waves plan fuel current s) fun s' =>
      Between tr good (fun _ => False) s' ∧ s.table.Advances tr.schema s'.table ∧
        ∀ h ∈ current, s'.table.Marked h := by
  induction fuel, current, s using waves.induct with
  | case1 fuel s =>
    rw [waves]
    exact ⟨Tracing.congr p fun x => by simp, .refl _, by simp⟩
  | case2 h rest s =>
    rw [waves]
    exact id
  | case3 fuel current s hne ih =>
    rw [waves]
    · refine (wave_spec hleast p hidle).bind ?_
      rintro ⟨next, s₁⟩ _ ⟨hbetween, hidle', hadv, hmarked⟩
      refine (ih next s₁ hbetween hidle').mono fun s' hs' => ?_
      exact ⟨hs'.1, hadv.trans hs'.2.1, fun x hx => hs'.2.1.marked (hmarked x hx)⟩
    · exact hne

/-- A trace looks at everything that can be reached from the frontier. -/
theorem trace_spec {plan : WavePlan} (hleast : 0 < plan.least) {frontier : List Handle}
    {table : Table} (pool : ScratchPool) {tally : Tally}
    (p : Tracing tr.schema tr.clusters tr.memberKeepsCluster good (· ∈ frontier)
      (· ∈ tally.weak) table) :
    Yields (tr.trace plan frontier table pool tally) fun s' =>
      Between tr good (fun _ => False) s' ∧ table.Advances tr.schema s'.table ∧
        ∀ h ∈ frontier, s'.table.Marked h := by
  refine waves_spec hleast _ frontier ⟨table, pool, _, tally⟩ p ?_
  intro o ho
  rw [List.eq_of_mem_replicate ho]
  rfl

end Tracer

end TracingHeap

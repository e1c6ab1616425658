import TracingHeap.Proofs.Trace.TaskFrame
import TracingHeap.Proofs.Collection.Scheduled
import TracingHeap.Proofs.Mark.NoFault

namespace TracingHeap

theorem getElem?_chunks {α : Type} {n : Nat} (hn : n ≠ 0) (i : Nat) : ∀ l : List α,
    (chunks n l)[i]? = if i * n < l.length then some ((l.drop (i * n)).take n) else none := by
  induction i with
  | zero =>
    intro l
    by_cases hl : l = []
    · subst hl
      rw [chunks]
      simp
    · have hpos := List.length_pos_iff.mpr hl
      rw [chunks_of_ne hn hl]
      simp [hpos]
  | succ i ih =>
    intro l
    have hnext : (i + 1) * n = n + i * n := by rw [Nat.succ_mul, Nat.add_comm]
    by_cases hl : l = []
    · subst hl
      rw [chunks]
      simp
    · rw [chunks_of_ne hn hl, List.getElem?_cons_succ, ih, List.length_drop, List.drop_drop, hnext]
      have hiff : i * n < l.length - n ↔ n + i * n < l.length := by omega
      simp only [hiff]

theorem mem_chunks {α : Type} {n : Nat} (hn : n ≠ 0) {l piece : List α} (h : piece ∈ chunks n l) :
    0 < piece.length ∧ piece.length ≤ n := by
  obtain ⟨i, hi⟩ := List.getElem?_of_mem h
  rw [getElem?_chunks hn] at hi
  split at hi
  · rename_i hlt
    cases hi
    rw [List.length_take, List.length_drop]
    omega
  · cases hi

theorem getElem?_getElem?_chunks {α : Type} {n : Nat} (hn : n ≠ 0) (l : List α) (i : Nat) {k : Nat}
    (hk : k < n) : (chunks n l)[i]?.bind (·[k]?) = l[i * n + k]? := by
  rw [getElem?_chunks hn]
  split
  · rw [Option.bind_some, List.getElem?_take_of_lt hk, List.getElem?_drop]
  · rename_i hle
    rw [Option.bind_none, List.getElem?_eq_none (by omega)]

theorem taskCount_pos {length batch : Nat} (hlength : 0 < length) (hbatch : batch ≠ 0) :
    0 < taskCount length batch := by
  unfold taskCount ceilDiv
  exact Nat.div_pos (by omega) (Nat.pos_of_ne_zero hbatch)

/-- A wave is cut into batches for some of the outputs: batch `i` holds the places from `i * batch` on. -/
structure CutInto {α β : Type} (wave : List α) (outputs : List β) (batch tasks : Nat) : Prop where
  some : 1 ≤ tasks
  fits : tasks ≤ outputs.length
  pieces : (chunks batch wave).length = tasks
  /-- Pairing the batches with outputs leaves out no batch. -/
  paired : ((outputs.take tasks).zip (chunks batch wave)).unzip =
    (outputs.take tasks, chunks batch wave)
  filled : ∀ piece ∈ chunks batch wave, 0 < piece.length ∧ piece.length ≤ batch
  place : ∀ i k, k < batch → (chunks batch wave)[i]?.bind (·[k]?) = wave[i * batch + k]?
  once : ∀ j, j < wave.length → ∃! i, i < tasks ∧ i * batch ≤ j ∧ j < i * batch + batch

theorem cutInto {α β : Type} {wave : List α} {outputs : List β} (workers : Nat) {least : Nat}
    (hwave : wave ≠ []) (hout : outputs ≠ []) (hleast : 0 < least) :
    CutInto wave outputs (batchSize wave.length workers outputs.length least)
      (taskCount wave.length (batchSize wave.length workers outputs.length least)) := by
  have hfits := taskCount_le wave.length workers (List.length_pos_iff.mpr hout) hleast
  have hbatch := batchSize_ne_zero wave.length workers outputs.length hleast
  generalize batchSize wave.length workers outputs.length least = batch at *
  have hpieces := length_chunks hbatch wave
  have hlength : (outputs.take (taskCount wave.length batch)).length =
      (chunks batch wave).length := by
    rw [hpieces, List.length_take, Nat.min_eq_left hfits]
  have hpos := Nat.pos_of_ne_zero hbatch
  refine ⟨taskCount_pos (List.length_pos_iff.mpr hwave) hbatch, hfits, hpieces,
    List.unzip_zip hlength, fun _ => mem_chunks hbatch, fun i k => getElem?_getElem?_chunks hbatch wave i,
    fun j hj => ⟨j / batch, ⟨?_, Nat.div_mul_le_self j batch, ?_⟩, ?_⟩⟩
  · unfold taskCount ceilDiv
    rw [Nat.div_lt_iff_lt_mul hpos]
    have := Nat.lt_mul_div_succ (wave.length + batch - 1) hpos
    rw [Nat.mul_add, Nat.mul_comm] at this
    omega
  · have := Nat.lt_div_mul_add hpos (a := j)
    omega
  · rintro i ⟨-, hle, hlt⟩
    exact (Nat.div_eq_of_lt_le hle (by rw [Nat.succ_mul]; exact hlt)).symm

namespace TaskOutput

/-- What the outputs of several tasks hold, task after task. -/
def gather (outputs : List TaskOutput) : TaskOutput := outputs.foldr join .empty

@[simp] theorem gather_nil : gather [] = .empty := rfl

@[simp] theorem gather_cons (o : TaskOutput) (outputs : List TaskOutput) :
    gather (o :: outputs) = o.join (gather outputs) := rfl

/-- Outputs that no task has used hold nothing. -/
theorem gather_empty {outputs : List TaskOutput} (h : ∀ o ∈ outputs, o = .empty) :
    gather outputs = .empty := by
  induction outputs with
  | nil => rfl
  | cons o rest ih =>
    rw [gather_cons, ih fun o ho => h o (List.mem_cons_of_mem _ ho), h o (List.mem_cons_self ..)]
    rfl

theorem reached_gather (outputs : List TaskOutput) :
    (gather outputs).reached.toList = outputs.flatMap (·.reached.toList) := by
  induction outputs with
  | nil => rfl
  | cons o rest ih => simp [join, ih]

/-- The tally takes over whatever the tasks have found. -/
theorem foldl_add (outputs : List TaskOutput) (tally : Tally) :
    outputs.foldl Tally.add tally = tally.add (gather outputs) := by
  induction outputs generalizing tally with
  | nil => simp [Tally.add, empty]
  | cons o rest ih =>
    rw [List.foldl_cons, ih, gather_cons]
    simp [Tally.add, join, Nat.add_assoc]

structure Alike (a b : TaskOutput) : Prop where
  reached : a.reached.toList.Perm b.reached.toList
  weak : a.weak.toList.Perm b.weak.toList
  scanned : a.scanned = b.scanned

namespace Alike

variable {a b c : TaskOutput}

theorem refl (a : TaskOutput) : a.Alike a := ⟨.refl _, .refl _, rfl⟩

theorem trans (h : a.Alike b) (h' : b.Alike c) : a.Alike c :=
  ⟨h.reached.trans h'.reached, h.weak.trans h'.weak, h.scanned.trans h'.scanned⟩

theorem join_right (h : a.Alike b) (c : TaskOutput) : (a.join c).Alike (b.join c) := by
  refine ⟨?_, ?_, congrArg (· + c.scanned) h.scanned⟩
  · simpa [join] using h.reached.append_right c.reached.toList
  · simpa [join] using h.weak.append_right c.weak.toList

theorem join_left (c : TaskOutput) (h : a.Alike b) : (c.join a).Alike (c.join b) := by
  refine ⟨?_, ?_, congrArg (c.scanned + ·) h.scanned⟩
  · simpa [join] using h.reached.append_left c.reached.toList
  · simpa [join] using h.weak.append_left c.weak.toList

theorem join_comm (a b : TaskOutput) : (a.join b).Alike (b.join a) := by
  refine ⟨?_, ?_, Nat.add_comm _ _⟩
  · simpa [join] using List.perm_append_comm
  · simpa [join] using List.perm_append_comm

end Alike

/-- What one task adds to its output is added to what the tasks hold together. -/
theorem gather_set {outputs : List TaskOutput} {i : Nat} {o : TaskOutput}
    (hget : outputs[i]? = some o) (added : TaskOutput) :
    (gather (outputs.set i (o.join added))).Alike ((gather outputs).join added) := by
  induction outputs generalizing i with
  | nil => cases hget
  | cons first rest ih =>
    cases i with
    | zero =>
      cases hget
      rw [List.set_cons_zero, gather_cons, gather_cons, join_assoc, join_assoc]
      exact (Alike.join_comm added (gather rest)).join_left o
    | succ i =>
      rw [List.set_cons_succ, gather_cons, gather_cons, join_assoc]
      exact (ih hget).join_left first

end TaskOutput

structure TraceState.Fresh (s : TraceState) : Prop where
  some : s.outputs ≠ []
  empty : ∀ o ∈ s.outputs, o = .empty

namespace Tracer

variable {tr : Tracer} {wave : List Handle} {t t' : Table} {a : TaskOutput}
  {outputs outputs' : List TaskOutput}

/-- The tasks of a wave find together what one task finds that takes their batches one after the other.
The induction is on the tasks left; `a` is what the one task has found so far. -/
theorem runTasks_gather (tr : Tracer) (work : List (TaskOutput × List Handle)) :
    ∀ (t : Table) (p p' : ScratchPool) (a : TaskOutput), (∀ job ∈ work, job.1 = .empty) →
      Alongside (fun m found => found.1.length = work.length ∧ found.2.1 = m.table ∧
          m.output = a.join (.gather found.1))
        ((work.flatMap (·.2)).foldlM tr.process ⟨t, p, a⟩) (tr.runTasks work t p') := by
  induction work with
  | nil => exact fun t p p' a _ => .ok ⟨rfl, rfl, (a.join_empty).symm⟩
  | cons job others ih =>
    intro t p p' a hempty
    obtain ⟨output, batch⟩ := job
    have hfirst : output = .empty := hempty _ (List.mem_cons_self ..)
    subst hfirst
    rw [List.flatMap_cons, List.foldlM_append, runTasks]
    have hrun : Alongside (Marking.Beside a .empty) (batch.foldlM tr.process ⟨t, p, a⟩)
        (tr.runTask ⟨t, p', .empty⟩ batch) :=
      Alongside.foldlM (fun h _ _ => tr.process_beside h) batch (.start t p p'.acquire)
    refine hrun.bind ?_
    rintro ⟨t₁, p₁, o₁⟩ ⟨t₁', p₁', o₁'⟩ ⟨htable, o, ha, he⟩
    dsimp only at htable ha he ⊢
    rw [TaskOutput.empty_join] at he
    subst htable ha he
    have hrest := ih t₁' p₁ p₁' (a.join o₁') fun job hjob => hempty job (List.mem_cons_of_mem _ hjob)
    rw [← bind_pure (List.foldlM _ _ _)]
    refine hrest.bind ?_
    rintro m ⟨done, t₂, p₂⟩ ⟨hlength, htable, houtput⟩
    refine .ok ⟨congrArg (· + 1) hlength, htable, houtput.trans ?_⟩
    rw [TaskOutput.gather_cons, TaskOutput.join_assoc]

structure SameWave (s s' : TraceState) (found found' : List Handle × TraceState) : Prop where
  next : found'.1 = found.1
  table : found'.2.table = found.2.table
  tally : found'.2.tally = found.2.tally
  outputs : found.2.outputs = s.outputs ∧ found'.2.outputs = s'.outputs

/-- A wave cut into batches hands on what the first task alone would have handed on, and ends in the
fault that it would have ended in. -/
theorem serialWave_batchedWave (workers : Nat) {least : Nat} (hleast : 0 < least) {s s' : TraceState}
    (hwave : wave ≠ []) (hs : s.Fresh) (hs' : s'.Fresh) (htable : s'.table = s.table)
    (htally : s'.tally = s.tally) :
    Alongside (SameWave s s') (tr.serialWave wave s) (tr.batchedWave workers least wave s') := by
  have hcut := cutInto workers hwave hs'.some hleast
  have hbatch := batchSize_ne_zero wave.length workers s'.outputs.length hleast
  unfold serialWave batchedWave
  dsimp only
  generalize batchSize wave.length workers s'.outputs.length least = batch at *
  generalize taskCount wave.length batch = tasks at *
  have hfresh := hs.empty
  obtain ⟨output, rest, hcons⟩ := List.exists_cons_of_ne_nil hs.some
  rw [hcons] at hfresh ⊢
  have hfirst : output = .empty := hfresh output (List.mem_cons_self ..)
  subst hfirst
  rw [if_neg (Nat.not_lt.mpr hcut.fits), htable, htally]
  have hpaired := congrArg Prod.snd hcut.paired
  rw [List.unzip_snd] at hpaired
  have hrun := tr.runTasks_gather ((s'.outputs.take tasks).zip (chunks batch wave)) s.table
    s.pool.acquire s'.pool .empty fun job hjob =>
      hs'.empty _ (List.mem_of_mem_take (List.of_mem_zip hjob).1)
  rw [List.flatMap_def, hpaired, flatten_chunks hbatch] at hrun
  have hlength : ((s'.outputs.take tasks).zip (chunks batch wave)).length = tasks := by
    rw [List.length_zip, hcut.pieces, List.length_take, Nat.min_eq_left hcut.fits, Nat.min_self]
  refine hrun.bind ?_
  rintro m ⟨done, t, p⟩ ⟨hdone, htable, houtput⟩
  rw [TaskOutput.empty_join] at houtput
  dsimp only at hdone htable houtput
  refine .ok ⟨?_, htable, ?_, hcons.symm, ?_⟩
  · rw [houtput, TaskOutput.reached_gather]
  · rw [houtput, ← TaskOutput.foldl_add]
  · have htake : s'.outputs.take tasks = List.replicate tasks .empty :=
      List.eq_replicate_iff.mpr ⟨by rw [List.length_take, Nat.min_eq_left hcut.fits],
        fun o ho => hs'.empty o (List.mem_of_mem_take ho)⟩
    dsimp only
    rw [List.map_const', hdone, hlength, ← htake, List.take_append_drop]

theorem SameWave.fresh {s s' : TraceState} {found found' : List Handle × TraceState}
    (h : SameWave s s' found found') (hs : s.Fresh) (hs' : s'.Fresh) :
    found.2.Fresh ∧ found'.2.Fresh :=
  ⟨⟨h.outputs.1 ▸ hs.some, h.outputs.1 ▸ hs.empty⟩, ⟨h.outputs.2 ▸ hs'.some, h.outputs.2 ▸ hs'.empty⟩⟩

/-- Two waves taken by the first task alone differ in the scratch lists at most. -/
theorem serialWave_serialWave {s s' : TraceState} (hs : s.Fresh) (hs' : s'.Fresh)
    (htable : s'.table = s.table) (htally : s'.tally = s.tally) :
    Alongside (SameWave s s') (tr.serialWave wave s) (tr.serialWave wave s') := by
  have hfresh := hs.empty
  have hfresh' := hs'.empty
  obtain ⟨output, rest, hcons⟩ := List.exists_cons_of_ne_nil hs.some
  obtain ⟨output', rest', hcons'⟩ := List.exists_cons_of_ne_nil hs'.some
  unfold serialWave
  rw [hcons] at hfresh ⊢
  rw [hcons'] at hfresh' ⊢
  have hfirst : output = .empty := hfresh output (List.mem_cons_self ..)
  have hfirst' : output' = .empty := hfresh' output' (List.mem_cons_self ..)
  subst hfirst hfirst'
  rw [htable, htally]
  have hrun : Alongside (Marking.Beside .empty .empty)
      (wave.foldlM tr.process ⟨s.table, s.pool.acquire, .empty⟩)
      (wave.foldlM tr.process ⟨s.table, s'.pool.acquire, .empty⟩) :=
    Alongside.foldlM (fun h _ _ => tr.process_beside h) wave (.start _ _ _)
  refine hrun.bind ?_
  rintro m m' ⟨htable, o, ho, ho'⟩
  rw [← ho'] at ho
  refine .ok ⟨?_, htable, ?_, hcons.symm, hcons'.symm⟩
  · rw [ho]
  · rw [ho]

theorem wave_alongside (workers : Nat) {least enough : Nat} (hleast : 0 < least)
    (henough : mulSizes 2 least = .ok enough) {s s' : TraceState} (hs : s.Fresh) (hs' : s'.Fresh)
    (htable : s'.table = s.table) (htally : s'.tally = s.tally) (hwave : wave ≠ []) :
    Alongside (SameWave s s') (tr.wave ⟨none, least⟩ wave s) (tr.wave ⟨some workers, least⟩ wave s') := by
  let counted (s : TraceState) : TraceState :=
    { s with tally := { s.tally with waves := s.tally.waves + 1 } }
  have hc : (counted s).Fresh := ⟨hs.some, hs.empty⟩
  have hc' : (counted s').Fresh := ⟨hs'.some, hs'.empty⟩
  have hcounted : (counted s').tally = (counted s).tally := by simp only [counted, htally]
  have hsame : ∀ found found', SameWave (counted s) (counted s') found found' →
      SameWave s s' found found' := fun _ _ h => ⟨h.next, h.table, h.tally, h.outputs⟩
  unfold Tracer.wave
  dsimp only
  rw [henough]
  change Alongside _ _ (if enough ≤ wave.length then _ else _)
  split
  · exact (serialWave_batchedWave workers hleast hwave hc hc' htable hcounted).mono hsame
  · exact (serialWave_serialWave hc hc' htable hcounted).mono hsame

def SameFlood (s s' : TraceState) : Prop := s'.table = s.table ∧ s'.tally = s.tally

/-- Wave after wave, batches hand on what the first task alone would have handed on. Each wave leaves the
outputs as it found them, so it does not matter which of them the waves before it have used. -/
theorem waves_alongside (workers : Nat) {least enough : Nat} (hleast : 0 < least)
    (henough : mulSizes 2 least = .ok enough) (fuel : Nat) : ∀ (wave : List Handle) {s s' : TraceState},
      s.Fresh → s'.Fresh → s'.table = s.table → s'.tally = s.tally →
        Alongside SameFlood (tr.waves ⟨none, least⟩ fuel wave s)
          (tr.waves ⟨some workers, least⟩ fuel wave s') := by
  induction fuel with
  | zero =>
    intro wave s s' hs hs' htable htally
    cases wave with
    | nil =>
      rw [waves, waves]
      exact .ok ⟨htable, htally⟩
    | cons h rest =>
      rw [waves, waves]
      exact .fault _
  | succ fuel ih =>
    intro wave s s' hs hs' htable htally
    cases wave with
    | nil =>
      rw [waves, waves]
      exact .ok ⟨htable, htally⟩
    | cons h rest =>
      rw [waves, waves]
      · refine (wave_alongside workers hleast henough hs hs' htable htally
          (List.cons_ne_nil h rest)).bind ?_
        rintro ⟨next, s₁⟩ ⟨next', s₁'⟩ hsame
        obtain ⟨hf, hf'⟩ := hsame.fresh hs hs'
        obtain rfl := hsame.next
        exact ih next' ⟨hf.some, hf.empty⟩ ⟨hf'.some, hf'.empty⟩ hsame.table hsame.tally
      · exact List.cons_ne_nil h rest
      · exact List.cons_ne_nil h rest

/-- Whatever the order in which the objects of a wave are looked at and whichever task looks at each, the
tasks find together what one task finds that takes the objects in that order. -/
theorem Takes.gather (run : tr.Takes wave t outputs t' outputs') : ∀ (p : ScratchPool) (a : TaskOutput),
    ∃ (order : List Handle) (m : Marking) (added : TaskOutput), wave.Perm order ∧
      order.foldlM tr.process ⟨t, p, a⟩ = .ok m ∧ m.table = t' ∧ m.output = a.join added ∧
      (TaskOutput.gather outputs').Alike ((TaskOutput.gather outputs).join added) := by
  induction run with
  | done t outputs =>
    intro p a
    refine ⟨[], ⟨t, p, a⟩, .empty, .refl _, rfl, rfl, (a.join_empty).symm, ?_⟩
    rw [TaskOutput.join_empty]
    exact .refl _
  | @next wave rest h i t t' pool output outputs outputs' m perm task process others ih =>
    intro p a
    have hboth := tr.process_beside h (Marking.Beside.start (a := output) (b := a) t pool p)
    obtain ⟨m₁, hfirst, htable, o, ho, ho₁⟩ := hboth.forth process
    obtain ⟨order, m₂, added, hperm, hrest, htable₂, houtput, halike⟩ := ih m₁.pool m₁.output
    refine ⟨h :: order, m₂, o.join added, perm.trans (hperm.cons h), ?_, htable₂, ?_, ?_⟩
    · rw [List.foldlM_cons, hfirst]
      rw [← htable] at hrest
      exact hrest
    · rw [houtput, ho₁, TaskOutput.join_assoc]
    · rw [ho] at halike
      rw [← TaskOutput.join_assoc]
      exact halike.trans ((TaskOutput.gather_set task o).join_right added)

/-- However many waves there are, batches lose nothing, unless the size from which on a wave is cut is no
number of the machine. -/
theorem waves_batched (workers : Nat) {least : Nat} (hleast : 0 < least) {s : TraceState} (hs : s.Fresh)
    (fuel : Nat) (wave : List Handle) :
    Alongside SameFlood (tr.waves ⟨none, least⟩ fuel wave s) (tr.waves ⟨some workers, least⟩ fuel wave s) ∨
      ∃ f, mulSizes 2 least = .error f ∧ tr.waves ⟨some workers, least⟩ fuel wave s = .error f := by
  cases henough : mulSizes 2 least with
  | ok enough => exact .inl (waves_alongside workers hleast henough fuel wave hs hs rfl rfl)
  | error f =>
    cases wave with
    | nil =>
      rw [waves, waves]
      exact .inl (.ok ⟨rfl, rfl⟩)
    | cons h rest =>
      cases fuel with
      | zero =>
        rw [waves, waves]
        exact .inl (.fault _)
      | succ fuel =>
        refine .inr ⟨f, rfl, ?_⟩
        rw [waves]
        · unfold Tracer.wave
          dsimp only
          rw [henough]
          rfl
        · exact List.cons_ne_nil h rest

/-- Cutting a wave into batches loses nothing. -/
structure LosesNothing (tr : Tracer) (workers least : Nat) (wave : List Handle) (s : TraceState)
    (batch tasks : Nat) : Prop where
  cut : CutInto wave s.outputs batch tasks
  /-- The next wave and the tally have all that the tasks hold in the end. -/
  drained : ∀ found, tr.batchedWave workers least wave s = .ok found →
    ∃ (done : List TaskOutput) (t : Table) (p : ScratchPool),
      tr.runTasks ((s.outputs.take tasks).zip (chunks batch wave)) s.table s.pool = .ok (done, t, p) ∧
        done.length = tasks ∧ found.1 = done.flatMap (·.reached.toList) ∧ found.2.table = t ∧
        found.2.tally = s.tally.add (.gather done)
  /-- The tasks hand on what the first of them alone would have handed on. -/
  alone : s.Fresh → Alongside (SameWave s s) (tr.serialWave wave s)
    (tr.batchedWave workers least wave s)
  /-- The order in which the tasks get on with their batches loses nothing either. -/
  turns : s.Fresh → ∀ (t : Table) (outputs : List TaskOutput),
    tr.Takes wave s.table s.outputs t outputs → ∃ (order : List Handle) (m : Marking),
      wave.Perm order ∧ order.foldlM tr.process ⟨s.table, s.pool, .empty⟩ = .ok m ∧ m.table = t ∧
        (TaskOutput.gather outputs).Alike m.output
  /-- Waves that follow, each with tasks of its own number, lose nothing either. -/
  later : s.Fresh → ∀ fuel, Alongside SameFlood (tr.waves ⟨none, least⟩ fuel wave s)
      (tr.waves ⟨some workers, least⟩ fuel wave s) ∨
    ∃ f, mulSizes 2 least = .error f ∧ tr.waves ⟨some workers, least⟩ fuel wave s = .error f

/-- Whatever the length of a wave, the number of the workers, the number of the outputs and the least size
of a batch, batches lose nothing. -/
theorem batches_lose_nothing (tr : Tracer) (workers : Nat) {least : Nat} {wave : List Handle}
    {s : TraceState} (hwave : wave ≠ []) (hout : s.outputs ≠ []) (hleast : 0 < least) :
    tr.LosesNothing workers least wave s
      (batchSize wave.length workers s.outputs.length least)
      (taskCount wave.length (batchSize wave.length workers s.outputs.length least)) := by
  have hcut := cutInto workers hwave hout hleast
  refine ⟨hcut, fun found hok => ?_, fun hs => serialWave_batchedWave workers hleast hwave hs hs rfl rfl,
    fun hs t outputs run => ?_, fun hs fuel => waves_batched workers hleast hs fuel wave⟩
  · unfold batchedWave at hok
    dsimp only at hok
    rw [if_neg (Nat.not_lt.mpr hcut.fits)] at hok
    obtain ⟨⟨done, t, p⟩, hrun, hok⟩ := except_bind_ok hok
    cases hok
    refine ⟨done, t, p, hrun, ?_, rfl, rfl, TaskOutput.foldl_add done s.tally⟩
    rw [length_of_runTasks hrun, List.length_zip, hcut.pieces, List.length_take,
      Nat.min_eq_left hcut.fits, Nat.min_self]
  · obtain ⟨order, m, added, hperm, hrun, htable, houtput, halike⟩ := run.gather s.pool .empty
    rw [TaskOutput.gather_empty hs.empty, TaskOutput.empty_join] at halike
    rw [TaskOutput.empty_join] at houtput
    exact ⟨order, m, hperm, hrun, htable, houtput ▸ halike⟩

end Tracer

open Sample in
/-- Three objects, three outputs and two workers make two batches. -/
theorem batches_lose_nothing_three : ∃ c, Reached c ∧
    ∃ (tr : Tracer) (s : TraceState) (found : List Handle × TraceState),
      tr = ⟨c.schema, c.clusters, false⟩ ∧ s = ⟨c.table, c.pool, .replicate 3 .empty, .empty⟩ ∧
        s.Fresh ∧ tr.batchedWave 2 1 [one, two, three] s = .ok found ∧
        tr.LosesNothing 2 1 [one, two, three] s 2 2 := by
  have hrun : Collector.runs .serial node (nodes 3) (fun c =>
      ((Tracer.mk c.schema c.clusters false).batchedWave 2 1 [one, two, three]
        ⟨c.table, c.pool, .replicate 3 .empty, .empty⟩).toOption.any fun _ => true) = true := by
    decide +kernel
  obtain ⟨c, hr, htest⟩ := Reached.of_runs node_honest (by decide) hrun
  obtain ⟨found, hfound, -⟩ := except_of_toOption_any htest
  let s : TraceState := ⟨c.table, c.pool, .replicate 3 .empty, .empty⟩
  have hout : s.outputs ≠ [] := List.cons_ne_nil _ _
  refine ⟨c, hr, _, s, found, rfl, rfl, ⟨hout, fun o ho => List.eq_of_mem_replicate ho⟩, hfound, ?_⟩
  have hwhole := Tracer.batches_lose_nothing ⟨c.schema, c.clusters, false⟩ 2
    (List.cons_ne_nil one [two, three]) hout Nat.one_pos
  have hbatch : batchSize [one, two, three].length 2 s.outputs.length 1 = 2 := by
    change batchSize 3 2 3 1 = 2
    decide
  have htasks : taskCount [one, two, three].length 2 = 2 := by decide
  rwa [hbatch, htasks] at hwhole

end TracingHeap

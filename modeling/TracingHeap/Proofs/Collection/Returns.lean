import TracingHeap.Proofs.Purge.Pieces
import TracingHeap.Proofs.Mark.NoFault

namespace TracingHeap

namespace Cluster

variable {s : Schema} {t : Table} {cs : Clusters} {c : Cluster}

structure Informed (t : Table) (cs : Clusters) (c : Cluster) : Prop where
  referenced : ∀ r ∈ c.referenced, ∃ d ∈ cs.list, d.root = r
  mutables : ∀ m ∈ c.mutables, ∃ o, t.get? m = some o

instance : Decidable (c.Informed t cs) :=
  decidable_of_iff ((∀ r ∈ c.referenced, ∃ d ∈ cs.list, d.root = r) ∧
      ∀ m ∈ c.mutables, t.contains m = true)
    ⟨fun h => ⟨h.1, fun m hm => Table.contains_iff.mp (h.2 m hm)⟩,
      fun h => ⟨h.referenced, fun m hm => Table.contains_iff.mpr (h.mutables m hm)⟩⟩

/-- In a settled heap nothing else can be wrong with a cluster. -/
theorem flaw_eq_none_iff (hs : Settled s t cs) (hc : c ∈ cs.list) :
    c.flaw cs t = none ↔ c.Informed t cs := by
  have he := hs.orderly.enrolled
  have hroot : rootFlaw t c.root = none := by
    obtain ⟨o, ho, hflag, hown⟩ := he.root c hc
    simp [rootFlaw, ho, hflag, hown]
  have hmembers : c.members.findSome? (memberFlaw t c.root) = none := by
    refine List.findSome?_eq_none_iff.mpr fun m hm => ?_
    obtain ⟨o, ho, hown, hu⟩ := he.member c hc m hm
    simp [memberFlaw, ho, hown, hu]
  rw [flaw, hroot, hmembers]
  simp only [Option.none_or, Option.or_eq_none_iff, List.findSome?_eq_none_iff]
  have hknown : ∀ r, referencedFlaw cs r = none ↔ ∃ d ∈ cs.list, d.root = r := by
    intro r
    unfold referencedFlaw Clusters.contains
    constructor
    · intro hr
      cases hget : cs.get? r with
      | none => simp [hget] at hr
      | some d => exact ⟨d, Clusters.mem_of_get? hget⟩
    · rintro ⟨d, hd, rfl⟩
      simp [Clusters.get?_of_mem he.distinct hd]
  have hthere : ∀ m, mutableFlaw t m = none ↔ ∃ o, t.get? m = some o := by
    intro m
    unfold mutableFlaw
    rw [← Table.contains_iff]
    cases t.contains m <;> simp
  exact ⟨fun h => ⟨fun r hr => (hknown r).mp (h.1 r hr), fun m hm => (hthere m).mp (h.2 m hm)⟩,
    fun h => ⟨fun r hr => (hknown r).mpr (h.referenced r hr),
      fun m hm => (hthere m).mpr (h.mutables m hm)⟩⟩

end Cluster

/-- The check passes when there is nothing wrong with any cluster, and else tells of a cluster. -/
theorem Clusters.verifyAll_cases {cs : Clusters} (hd : (cs.list.map (·.root)).Nodup) (t : Table) :
    (cs.verifyAll t = .ok () ∧ ∀ c ∈ cs.list, c.flaw cs t = none) ∨
      (∃ reason, cs.verifyAll t = .error (.clusterInvariant reason)) ∧
        ∃ c ∈ cs.list, c.flaw cs t ≠ none := by
  unfold verifyAll
  suffices hlist : ∀ l : List Cluster, (∀ c ∈ l, c ∈ cs.list) →
      ((l.map (·.root)).forM (cs.verify t) = .ok () ∧ ∀ c ∈ l, c.flaw cs t = none) ∨
        (∃ reason, (l.map (·.root)).forM (cs.verify t) = .error (.clusterInvariant reason)) ∧
          ∃ c ∈ l, c.flaw cs t ≠ none from hlist cs.list fun _ => id
  intro l
  induction l with
  | nil => exact fun _ => .inl ⟨rfl, fun c hc => absurd hc List.not_mem_nil⟩
  | cons c rest ih =>
    intro hl
    have hget := get?_of_mem hd (hl c (List.mem_cons_self ..))
    change (cs.verify t c.root >>= fun _ => (rest.map (·.root)).forM (cs.verify t)) = _ ∧ _ ∨
      (∃ reason, (cs.verify t c.root >>= fun _ => (rest.map (·.root)).forM (cs.verify t)) = _) ∧ _
    cases hflaw : c.flaw cs t with
    | some reason =>
      have hverify : cs.verify t c.root =
          .error (.clusterInvariant ("cluster " ++ c.root.text ++ ": " ++ reason)) := by
        simp [verify, hget, hflaw]
      rw [hverify]
      exact .inr ⟨⟨_, rfl⟩, c, List.mem_cons_self .., by simp [hflaw]⟩
    | none =>
      have hverify : cs.verify t c.root = .ok () := by
        simp [verify, hget, hflaw]
      rw [hverify]
      rcases ih fun d hd => hl d (List.mem_cons_of_mem _ hd) with ⟨hok, hnone⟩ | ⟨herror, d, hd, hne⟩
      · refine .inl ⟨hok, fun d hd => ?_⟩
        rcases List.mem_cons.mp hd with rfl | hd
        · exact hflaw
        · exact hnone d hd
      · exact .inr ⟨herror, d, List.mem_cons_of_mem _ hd, hne⟩

namespace Collector

variable {c d b : Collector} {keep : Flags} {stats : Statistics} {reply : Reply} {op : Operation}

/-- All clusters and objects that the clusters of the permanent pool know of are there. -/
def PoolInformed (c : Collector) : Prop := ∀ e ∈ c.clusters.list,
  c.table.isPermanent e.root = true → e.Informed c.table c.clusters

instance (c : Collector) : Decidable c.PoolInformed :=
  inferInstanceAs (Decidable (∀ e ∈ c.clusters.list,
    c.table.isPermanent e.root = true → e.Informed c.table c.clusters))

/-- The clusters outside the permanent pool pass every check. -/
theorem verifyClusters_cases (hc : c.Sound) :
    (c.verifyClusters = .ok () ∧ (c.settings.verify = true → c.PoolInformed)) ∨
      (∃ reason, c.verifyClusters = .error (.fatal (.clusterInvariant reason))) ∧
        c.settings.verify = true ∧ ¬ c.PoolInformed := by
  have hs := hc.settled
  unfold verifyClusters
  cases hverify : c.settings.verify with
  | false => exact .inl ⟨rfl, fun h => by cases h⟩
  | true =>
    rw [if_pos rfl]
    rcases Clusters.verifyAll_cases hs.orderly.enrolled.distinct c.table with
      ⟨hok, hnone⟩ | ⟨⟨reason, herror⟩, e, he, hflaw⟩
    · rw [hok]
      exact .inl ⟨rfl, fun _ e he _ => (Cluster.flaw_eq_none_iff hs he).mp (hnone e he)⟩
    · rw [herror]
      refine .inr ⟨⟨reason, rfl⟩, rfl, fun hpool => hflaw ((Cluster.flaw_eq_none_iff hs he).mpr ?_)⟩
      cases hp : c.table.isPermanent e.root with
      | true => exact hpool e he hp
      | false =>
        have htracks := hs.orderly.tracked e he hp
        exact ⟨htracks.referenced, fun m hm => (htracks.mutables m hm).1⟩

theorem mark_balanced {s : Schema} {plan : MarkPlan} {t : Table} {cs : Clusters} {pool : ScratchPool}
    {r : MarkResult} (hok : mark s plan t cs pool = .ok r) : r.pool.inUse = 0 := by
  obtain ⟨-, -, -, -, -, hbalanced⟩ := mark_ok hok
  exact hbalanced

/-- Where there are workers, there are several. -/
theorem markPlan_workers (c : Collector) (keep : Flags) :
    (c.markPlan keep).waves.workers ≠ some 0 := by
  unfold markPlan
  dsimp only
  split
  · rename_i hmany
    have := of_decide_eq_true (Bool.and_eq_true_iff.mp hmany).2
    intro h
    have := Option.some.inj h
    omega
  · exact fun h => by cases h

/-- Once the check has passed, finding the dead comes back. -/
theorem Idle.condemn_returns (hc : c.Idle) (hs : c.schema.Streamed)
    (hleast : 2 * max c.settings.minPerTask 1 < sizeLimit)
    (hpool : c.pool.inUse = 0) (keep : Flags) (hverify : c.verifyClusters = .ok ()) :
    ∃ stats d, c.condemn keep = .ok (stats, d) := by
  have hfits : (c.markPlan keep).waves.Fits := ⟨c.markPlan_least keep, hleast⟩
  have hsettled := hc.sound.settled
  have hmark := mark_spec (c.markPlan_least keep) hsettled .all (fun _ _ _ _ _ _ => trivial) c.pool
  obtain ⟨r, hr, ⟨hrested, -⟩, -⟩ := hmark.returns (mark_ends hs.averts (hfits.averts _)
    (c.markPlan_workers keep) hsettled.orderly.tidy c.clusters hpool (hc.standing.idle hc.idle).2)
  obtain ⟨⟨unhashed, t, cs⟩, hdissolved, ⟨j, -⟩, -⟩ :=
    (dissolveUnreachable_spec hrested.tracing hrested.outlived).returns
      (dissolveUnreachable_ends hs.averts r.table r.clusters)
  obtain ⟨⟨t', cleared⟩, hcleared, -⟩ := (clearWeak_spec j.tracing.orderly r.weak).returns
    (clearWeak_ends hs.averts cs r.weak t)
  unfold condemn
  rw [hverify]
  change ∃ stats d, (mark c.schema (c.markPlan keep) c.table c.clusters c.pool >>= _) = _
  rw [hr]
  change ∃ stats d, (r.clusters.dissolveUnreachable c.schema r.table >>= _) = _
  rw [hdissolved]
  change ∃ stats d, (clearWeak c.schema cs r.weak t >>= _) = _
  rw [hcleared]
  exact ⟨_, _, rfl⟩

theorem runPurge_pool {deadline : Option Deadline} {progress : Progress}
    (hok : c.runPurge deadline = .ok (progress, d)) : d.pool = c.pool := by
  obtain ⟨p, -, rfl⟩ := runPurge_ok hok
  rfl

theorem finishPurge_pool {n : Nat} (hok : c.finishPurge = .ok (n, d)) : d.pool = c.pool := by
  obtain ⟨progress, hrun, -⟩ := finishPurge_ok hok
  exact runPurge_pool hrun

theorem collect_pool {full : Bool} (hok : c.collect keep full = .ok (stats, d)) :
    d.pool.inUse = 0 := by
  obtain ⟨n, b, -, found, m, hcondemn, freed, e, hend, -, rfl⟩ := collect_ok hok
  obtain ⟨-, r, hmark, unhashed, t, cs, -, t', cleared, -, rfl, -⟩ := condemn_ok hcondemn
  have hbalanced : r.pool.inUse = 0 := mark_balanced hmark
  cases full with
  | true =>
    rw [if_pos rfl] at hend
    exact (congrArg ScratchPool.inUse (finishPurge_pool hend)).trans hbalanced
  | false =>
    cases hend
    exact hbalanced

end Collector

/-- Between two calls every scratch list is in the pool. -/
theorem Reached.balanced {c : Collector} (hr : Reached c) : c.pool.inUse = 0 := by
  induction hr with
  | start settings processors => rfl
  | @step c d op reply hr ha hok ih =>
    cases hop : op.collects with
    | false => rwa [(Collector.perform_respects hr.sound ha hop hok).pool]
    | true =>
      obtain ⟨lock, misses, hcases⟩ := Collector.perform_collects hop hok
      rcases hcases with rfl | ⟨keep, full, stats, hd⟩ | ⟨deadline, progress, hd⟩ | ⟨-, n, e, hd, rfl⟩
      · exact ih
      · exact Collector.collect_pool hd
      · rwa [Collector.runPurge_pool hd]
      · change e.pool.inUse = 0
        rwa [Collector.finishPurge_pool hd]

/-- A collection finishes the purge that was left, and then it comes back, unless the clusters are to be
checked and a cluster of the permanent pool knows of something that is not there any more. No other
fault ends a collection: no object is waited for without end, the sizes that are computed fit, and
nothing else in the heap is in disorder. -/
theorem Reached.collect_returns_iff {c : Collector} (hr : Reached c) (hp : c.schema.Patient)
    (hs : c.schema.Streamed) (hleast : 2 * max c.settings.minPerTask 1 < sizeLimit) (keep : Flags)
    (full : Bool) : ∃ n b, c.finishPurge = .ok (n, b) ∧
      ((∃ stats d, c.collect keep full = .ok (stats, d)) ↔
        (c.settings.verify = true → b.PoolInformed)) ∧
      ∀ f, c.collect keep full = .error f → ∃ reason, f = .fatal (.clusterInvariant reason) := by
  obtain ⟨progress, p, hrun⟩ := PurgeState.run_ok (p := c.pending) none (fun _ => hp) hr.standing
  refine ⟨_, _, Collector.finishPurge_of_run hrun, ?_⟩
  -- a collection forgets the attempts that have missed, which neither the purge nor the check looks at
  let start : Collector := { c with misses := 0 }
  have hfinish := Collector.finishPurge_of_run (c := start) hrun
  obtain ⟨-, hb⟩ := hr.standing.first_phase hr.sound hfinish
  rcases Collector.verifyClusters_cases hb.sound with
    ⟨hverify, hpool⟩ | ⟨⟨reason, hverify⟩, hchecks, hpool⟩
  · obtain ⟨found, m, hcondemn⟩ := hb.condemn_returns hs hleast hr.balanced keep hverify
    have hm := hb.requested hcondemn
    have hpatient : m.schema.Patient := by
      rw [hm.schema]
      exact hp
    obtain ⟨last, q, hlast⟩ := PurgeState.run_ok (p := m.pending) none (fun _ => hpatient) hm.standing
    have hend : ∃ freed e, (if full then m.finishPurge else pure (0, m)) = .ok (freed, e) := by
      cases full with
      | true => exact ⟨_, _, Collector.finishPurge_of_run hlast⟩
      | false => exact ⟨0, m, rfl⟩
    obtain ⟨freed, e, hend⟩ := hend
    obtain ⟨stats, hcollect, -⟩ := Collector.collect_of_phases full hfinish hcondemn hend
    refine ⟨⟨fun _ => hpool, fun _ => ⟨stats, _, hcollect⟩⟩, fun f hf => ?_⟩
    rw [hcollect] at hf
    cases hf
  · have hcollect : c.collect keep full = .error (.fatal (.clusterInvariant reason)) := by
      unfold Collector.collect
      rw [hfinish]
      change ((start.movedOn p).condemn keep >>= _) = _
      unfold Collector.condemn
      rw [hverify]
      rfl
    refine ⟨⟨fun hok => ?_, fun h => absurd (h hchecks) hpool⟩, fun f hf => ⟨reason, ?_⟩⟩
    · obtain ⟨stats, d, hok⟩ := hok
      rw [hcollect] at hok
      cases hok
    · rw [hcollect] at hf
      cases hf
      rfl

open Sample in
/-- A cluster of the permanent pool knows of an object that is rooted. -/
theorem collect_returns_iff_rooted : ∃ c, Reached c ∧ c.settings.verify = true ∧
    (∃ e ∈ c.clusters.list, c.table.isPermanent e.root = true ∧ two ∈ e.mutables) ∧
      ∃ stats d, c.collect .empty true = .ok (stats, d) := by
  have hrun : Collector.runsPooled lingering (nodes 1 ++ [.formCluster one []])
      [.createObject ⟨0⟩ "late", .addRoot two, .setReference one 0 (some two)] (fun c =>
        c.settings.verify && decide (2 * max c.settings.minPerTask 1 < sizeLimit) &&
          (c.schema.classes.all (·.stream.isOk) && c.clusters.list.any fun e =>
            c.table.isPermanent e.root && e.mutables.contains two) &&
          match c.finishPurge with
          | .ok (_, b) => decide b.PoolInformed
          | .error _ => false) = true := by
    decide +kernel
  obtain ⟨c, hr, hp, htest⟩ :=
    Reached.of_runsPooled lingering_honest lingering_patient (by decide) (by decide) hrun
  simp only [Bool.and_eq_true, decide_eq_true_eq, Array.all_eq_true_iff_forall_mem,
    List.any_eq_true, List.contains_iff_mem] at htest
  obtain ⟨⟨⟨hverify, hleast⟩, hs, he⟩, htest⟩ := htest
  obtain ⟨n, b, hb, hiff, -⟩ := hr.collect_returns_iff hp hs hleast .empty true
  rw [hb] at htest
  exact ⟨c, hr, hverify, he, hiff.mpr fun _ => of_decide_eq_true htest⟩

open Sample in
/-- A cluster of the permanent pool knows of an object that one collection frees. The next collection
ends in a fault. -/
theorem pool_cluster_outlives_object : ∃ c reason, Reached c ∧ c.schema.Patient ∧
    c.settings.verify = true ∧ c.settings.minPerTask = Settings.default.minPerTask ∧
      c.collect .empty true = .error (.fatal (.clusterInvariant reason)) := by
  have hrun : Collector.runsPooled node (nodes 1 ++ [.formCluster one []])
      [.createObject ⟨0⟩ "late", .setReference one 0 (some two), .collect .empty true] (fun c =>
        c.settings.verify && decide (c.settings.minPerTask = Settings.default.minPerTask) &&
          match c.collect .empty true with
          | .error (.fatal (.clusterInvariant _)) => true
          | _ => false) = true := by
    decide +kernel
  obtain ⟨c, hr, hp, htest⟩ :=
    Reached.of_runsPooled node_honest (fun f hf => nomatch hf) (by decide) (by decide) hrun
  simp only [Bool.and_eq_true, decide_eq_true_eq] at htest
  obtain ⟨⟨hverify, hleast⟩, htest⟩ := htest
  split at htest
  · rename_i reason hcollect
    exact ⟨c, reason, hr, hp, hverify, hleast, hcollect⟩
  · cases htest

end TracingHeap

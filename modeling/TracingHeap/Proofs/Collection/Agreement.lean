import TracingHeap.Proofs.Collection.Search

namespace TracingHeap

theorem Table.Paired.spares {t t' : Table} (hp : t.Paired) (a : t.Spares t') : t'.Paired := by
  intro h o' ho' hn
  obtain ⟨o, ho, hw⟩ := a.back h o' ho'
  rw [hw.flag _ (by decide) (by decide)] at hn
  rw [hw.isUnreachable]
  exact hp h o ho hn

theorem Operation.Respects.paired {op : Operation} {c d : Collector} (hr : op.Respects c d)
    (hp : c.table.Paired) : d.table.Paired := by
  intro h o' ho' hn
  obtain ⟨o, ho, hs⟩ := hr.abides.back_of_has ho' hn
  rw [hr.noStrong h o o' ho ho'] at hn
  exact hs.unreachable.trans (hp h o ho hn)

namespace Collector

variable {c d : Collector} {keep : Flags} {full : Bool} {stats stats' : Statistics}
  {reply : Reply} {op : Operation}

theorem paired_of_condemn (hc : c.Sound) (hp : c.table.Paired)
    (hok : c.condemn keep = .ok (stats, d)) : d.table.Paired := by
  obtain ⟨_, _, _, _, _, a, -⟩ := search_of_condemn hc hok
  exact a.paired hp

theorem paired_of_collect (hc : c.Sound) (hp : c.table.Paired)
    (hok : c.collect keep full = .ok (stats, d)) : d.table.Paired := by
  obtain ⟨n, b, hfinish, found, m, hcondemn, freed, e, hend, -, rfl⟩ := collect_ok hok
  have hc' : ({ c with misses := 0 } : Collector).Sound := ⟨hc.settled, hc.purge⟩
  have hb := (finishPurge_spec hc').ok hfinish
  obtain ⟨hm, -⟩ := hb.sound.condemned hcondemn
  have hpaired := paired_of_condemn hb.sound (hp.spares hb.spares) hcondemn
  exact hpaired.spares (last_phase hm hend).spares

theorem paired_of_perform (hc : c.Sound) (hp : c.table.Paired) (ha : op.Allowed c)
    (hok : c.perform op = .ok (reply, d)) : d.table.Paired := by
  cases hop : op.collects with
  | false => exact (perform_respects hc ha hop hok).paired hp
  | true =>
    obtain ⟨lock, misses, hcases⟩ := perform_collects hop hok
    have hc' := hc.relocked lock misses
    rcases hcases with rfl | ⟨keep, full, stats, hd⟩ | ⟨deadline, progress, hd⟩ | ⟨-, n, e, hd, rfl⟩
    · exact hp
    · exact paired_of_collect hc' hp hd
    · exact hp.spares ((runPurge_spec hc' deadline).ok hd).spares
    · exact hp.spares ((finishPurge_spec hc').ok hd).spares

end Collector

/-- Between two calls, only flagged objects have the flag `noStrongReference`. -/
theorem Reached.paired {c : Collector} (hr : Reached c) : c.table.Paired := by
  induction hr with
  | start settings processors =>
    intro h o ho
    change Table.empty.get? h = some o at ho
    rw [Table.get?_empty] at ho
    cases ho
  | step hc ha hd ih => exact Collector.paired_of_perform hc.sound ih ha hd

namespace Collector

variable {c d : Collector} {keep : Flags} {full : Bool} {stats stats' : Statistics}
  {p p' : PurgeState} {cs cs' : Clusters}

/-- Two collections come to the same heap and to the same clusters, and report the same. -/
theorem Collects.confluent (hc : c.Sound) (hs : c.Standing) (hp : c.table.Paired)
    (a : c.Collects keep full stats p cs) (b : c.Collects keep full stats' p' cs') :
    p' = p ∧ cs.Alike cs' ∧ stats' = { stats with parallel := stats'.parallel } := by
  cases a with
  | intro first finds purge =>
  cases b with
  | intro first' finds' purge' =>
  rw [first] at first'
  cases first'
  obtain ⟨hpurged, hidle⟩ := hs.first_phase hc first
  obtain ⟨rfl, hclusters, hstats⟩ := finds.confluent hidle.sound (hp.spares hpurged.spares) finds'
  have hconsidered := congrArg Statistics.considered hstats
  dsimp only at hconsidered
  rw [hconsidered] at purge'
  cases full with
  | true =>
    obtain ⟨progress, hrun, rfl⟩ := purge
    obtain ⟨progress', hrun', rfl⟩ := purge'
    rw [hrun] at hrun'
    cases hrun'
    refine ⟨rfl, hclusters, ?_⟩
    rw [hstats]
  | false =>
    obtain ⟨rfl, rfl⟩ := purge
    obtain ⟨rfl, rfl⟩ := purge'
    refine ⟨rfl, hclusters, ?_⟩
    rw [hstats]

/-- The collector with another number of workers, and with other settings that tell how the waves of a
mark are cut into batches. -/
def tuned (c : Collector) (workers : Nat) (allowParallel : Bool) (minPerTask : Nat) : Collector :=
  { c with
    workers := workers
    settings := { c.settings with allowParallel := allowParallel, minPerTask := minPerTask } }

section

variable {workers : Nat} {allowParallel : Bool} {minPerTask : Nat}

theorem finishPurge_tuned : (c.tuned workers allowParallel minPerTask).finishPurge =
    c.finishPurge.map fun found => (found.1, found.2.tuned workers allowParallel minPerTask) := by
  rw [finishPurge_eq, finishPurge_eq, runPurge_eq, runPurge_eq]
  change (PurgeState.run c.schema none c.pending |>.map _ |>.map _) = _
  cases PurgeState.run c.schema none c.pending <;> rfl

theorem Finds.of_tuned {t : Table} (a : (c.tuned workers allowParallel minPerTask).Finds keep stats t cs) :
    c.Finds keep stats t cs := by
  cases a with
  | intro parallel same verified seeded marked order scattered weak swept =>
    exact .intro parallel same verified seeded marked order scattered weak swept

/-- The tuning is not part of what a collection may come to. -/
theorem Collects.of_tuned (a : (c.tuned workers allowParallel minPerTask).Collects keep full stats p cs) :
    c.Collects keep full stats p cs := by
  cases a with
  | @intro b n freed found t cs p first finds purge =>
    have hfirst : (({ c with misses := 0 } : Collector).tuned workers allowParallel
        minPerTask).finishPurge = .ok (n, b) := first
    rw [finishPurge_tuned] at hfirst
    obtain ⟨⟨n, b⟩, hb, hfound⟩ := except_map_ok hfirst
    cases hfound
    exact .intro hb finds.of_tuned purge

end

end Collector

/-- A collection comes to the same heap, to the same clusters but for the order of their lists, and
reports the same, whatever the number of workers and the batches, whatever the order in which the objects
of a wave are looked at, and whatever the order in which clusters and their references are listed.
Whether it could use several workers is the only thing that may be told differently. Of the two conditions on
a reached heap, honest classes and no cluster with the object in slot 4294967295 when the pool is closed, the
first is why it does not matter what else of an object has changed when its collectors are asked. -/
theorem Reached.collections_agree {c : Collector} (hr : Reached c) (keep : Flags) (full : Bool) :
    (∀ workers allowParallel minPerTask stats d,
      (c.tuned workers allowParallel minPerTask).collect keep full = .ok (stats, d) →
        c.Collects keep full stats d.pending d.clusters) ∧
    ∀ stats stats' p p' cs cs', c.Collects keep full stats p cs →
      c.Collects keep full stats' p' cs' →
        p' = p ∧ cs.Alike cs' ∧ stats' = { stats with parallel := stats'.parallel } :=
  ⟨fun _ _ _ _ _ hok => (Collector.collects_of_collect hok).of_tuned,
    fun _ _ _ _ _ _ a b => a.confluent hr.sound hr.standing hr.paired b⟩

open Collector Sample in
/-- Four workers that take one object at a time, and one worker. -/
theorem collections_agree_pair : ∃ (c d e : Collector) (stats stats' : Statistics), Reached c ∧
    (c.tuned 1 false 128).collect .empty true = .ok (stats, d) ∧
    (c.tuned 4 true 1).collect .empty true = .ok (stats', e) ∧ e.pending = d.pending ∧
      d.clusters.Alike e.clusters ∧ stats' = { stats with parallel := stats'.parallel } := by
  have hrun : runs .serial node (nodes 4 ++ [.addRoot one, .addRoot two, .setReference one 0 (some three),
      .setReference two 0 (some four), .formCluster three []]) (fun c =>
        (c.tuned 1 false 128).leaves .empty true (fun _ => true) &&
          (c.tuned 4 true 1).leaves .empty true fun _ => true) = true := by
    decide +kernel
  obtain ⟨c, hr, hc⟩ := Reached.of_runs node_honest (by decide +kernel) hrun
  obtain ⟨hserial, hparallel⟩ := Bool.and_eq_true_iff.mp hc
  obtain ⟨stats, d, hd, -⟩ := collect_of_leaves hserial
  obtain ⟨stats', e, he, -⟩ := collect_of_leaves hparallel
  obtain ⟨hruns, hsame⟩ := hr.collections_agree .empty true
  exact ⟨c, d, e, stats, stats', hr, hd, he, hsame _ _ _ _ _ _ (hruns _ _ _ _ _ hd)
    (hruns _ _ _ _ _ he)⟩

end TracingHeap

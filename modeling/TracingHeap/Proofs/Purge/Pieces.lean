import TracingHeap.Proofs.Purge.Pending

namespace TracingHeap

namespace Collector

variable {c d e f : Collector} {keep : Flags} {stats : Statistics}

/-- Purge calls one after the other, each with a deadline of its own. -/
def purgeAll (c : Collector) : List (Option Deadline) → Except Fault (List Progress × Collector)
  | [] => .ok ([], c)
  | deadline :: rest => do
    let (progress, c) ← c.runPurge deadline
    let (others, c) ← c.purgeAll rest
    return (progress :: others, c)

/-- A purge that has only been requested has all flagged objects outside the permanent pool before it. -/
theorem Requested.ahead (hd : c.Requested d) : d.pending.ahead = d.table.boundary := by
  unfold PurgeState.ahead
  rw [show d.pending.purge.routed = false from hd.routed]
  rfl

theorem Requested.remaining (hd : c.Requested d) :
    d.pending.remaining = (d.table.flaggedFrom d.table.boundary).length := by
  rw [PurgeState.remaining, if_pos (show d.pending.purge.required = true from hd.required), hd.ahead]
  rfl

/-- The purge has come to its end and has left nothing of itself; the clusters have not changed. -/
structure Ended (c f : Collector) : Prop where
  table : f.table = c.pending.goal
  clusters : f.clusters = c.clusters
  purge : f.purge = .idle

/-- A call that completes a purge brings the table to where the purge was heading. -/
theorem ended_of_completed (hs : c.Standing) (hreq : c.purge.required = true)
    (hout : c.pending.Outside) {p : PurgeState} {progress : Progress}
    (hran : PurgeState.Ran c.schema c.pending progress p) (hend : progress.completed = true) :
    c.Ended (c.movedOn p) ∧ progress.purged = c.pending.remaining := by
  have hidle := hran.idle_of_completed hs hreq hend
  obtain ⟨-, hgoal, hremaining⟩ := hran.aims hs hout
  have hnone : p.goal = p.table ∧ p.remaining = 0 := by
    simp [PurgeState.goal, PurgeState.remaining, hidle, Purge.idle]
  rw [hnone.1] at hgoal
  rw [hnone.2] at hremaining
  exact ⟨⟨hgoal, rfl, hidle⟩, hremaining⟩

theorem purgeAll_cons_iff {deadline : Option Deadline} {rest : List (Option Deadline)}
    {calls : List Progress} : c.purgeAll (deadline :: rest) = .ok (calls, f) ↔
      ∃ progress d others, c.runPurge deadline = .ok (progress, d) ∧
        d.purgeAll rest = .ok (others, f) ∧ calls = progress :: others := by
  constructor
  · intro hok
    obtain ⟨⟨progress, d⟩, hfirst, hlate⟩ := except_bind_ok hok
    obtain ⟨⟨others, g⟩, hrest, hlast⟩ := except_bind_ok hlate
    cases hlast
    exact ⟨progress, d, others, hfirst, hrest, rfl⟩
  · rintro ⟨progress, d, others, hfirst, hrest, rfl⟩
    rw [purgeAll, hfirst]
    change (d.purgeAll rest >>= _) = _
    rw [hrest]
    rfl

/-- A call that is cut off leaves a purge that is still required. -/
theorem required_of_cut {p q : PurgeState} {s : Schema} {progress : Progress}
    (hran : PurgeState.Ran s p progress q) (hcut : progress.completed = false) :
    q.purge.required = true := by
  cases hran with
  | idle => cases hcut
  | routed _ hq => exact hq.required
  | @swept r _ _ _ _ hr _ hw =>
    rw [hw.purge]
    exact (r.purge.placeCursor_frame r.table).1.trans hr.required
  | done => cases hcut

/-- Whatever the deadlines, one of the calls completes the purge, and the calls together free what there
was to free. -/
theorem purgeAll_ends (hs : c.Standing) (hp : c.schema.Patient) (hreq : c.purge.required = true)
    (hout : c.pending.Outside) (limits : Nat → Option Deadline) :
    ∃ n calls f, c.purgeAll ((List.range (n + 1)).map limits) = .ok (calls, f) ∧
      calls.map (·.completed) = .replicate n false ++ [true] ∧
      (calls.map (·.purged)).sum = c.pending.remaining ∧ c.Ended f := by
  generalize hschema : c.schema = s at hp
  generalize hq : c.pending = q
  induction q using (PurgeState.before_wf s).induction generalizing c limits with
  | _ q ih =>
    subst hq hschema
    obtain ⟨progress, p, hrun⟩ := PurgeState.run_ok (p := c.pending) (limits 0) (fun _ => hp) hs
    obtain ⟨hran, -, hbefore⟩ := PurgeState.ran_of_run (p := c.pending) hs hrun
    have hfirst : c.runPurge (limits 0) = .ok (progress, c.movedOn p) := by
      rw [runPurge_eq, hrun]
      rfl
    cases hend : progress.completed with
    | true =>
      obtain ⟨hended, hpurged⟩ := ended_of_completed hs hreq hout hran hend
      refine ⟨0, [progress], c.movedOn p, purgeAll_cons_iff.mpr ⟨_, _, _, hfirst, rfl, rfl⟩, ?_, ?_, hended⟩
      · simp [hend]
      · simpa using hpurged
    | false =>
      have hnext := (hbefore hp).resolve_left (by simp [hend])
      obtain ⟨hout', hgoal, hremaining⟩ := hran.aims hs hout
      obtain ⟨n, calls, f, hcalls, hcompleted, hsum, hended⟩ :=
        ih p hnext (c := c.movedOn p) (hran.stands hs) (required_of_cut hran hend) hout'
          (fun i => limits (i + 1)) rfl rfl
      refine ⟨n + 1, progress :: calls, f, ?_, ?_, ?_, hended.table.trans hgoal, hended.clusters,
        hended.purge⟩
      · have hlist : (List.range (n + 1 + 1)).map limits =
            limits 0 :: (List.range (n + 1)).map fun i => limits (i + 1) := by
          rw [List.range_succ_eq_map, List.map_cons, List.map_map]
          rfl
        rw [hlist]
        exact purgeAll_cons_iff.mpr ⟨_, _, _, hfirst, hcalls, rfl⟩
      · rw [List.map_cons, hend, hcompleted]
        rfl
      · rw [List.map_cons, List.sum_cons, hsum]
        exact hremaining

/-- A collection whose phases come back comes back. -/
theorem collect_of_phases (full : Bool) {n freed : Nat} {b m : Collector} {found : Statistics}
    (hfinish : ({ c with misses := 0 } : Collector).finishPurge = .ok (n, b))
    (hcondemn : b.condemn keep = .ok (found, m))
    (hend : (if full then m.finishPurge else pure (0, m)) = .ok (freed, e)) :
    ∃ stats, c.collect keep full = .ok (stats, { e with last := some stats }) ∧
      stats.unreachable = found.unreachable := by
  unfold collect
  rw [hfinish]
  change ∃ stats, (b.condemn keep >>= _) = _ ∧ _
  rw [hcondemn]
  cases full with
  | true =>
    change ∃ stats, (m.finishPurge >>= _) = _ ∧ _
    rw [show m.finishPurge = .ok (freed, e) from hend]
    exact ⟨_, rfl, rfl⟩
  | false =>
    cases hend
    exact ⟨_, rfl, rfl⟩

end Collector

/-- A collection may leave the purge to later calls. Whatever their deadlines, one of them completes the
purge, they free as many objects as were found unreachable, and the table, the clusters and the purge
are then those that a collection with the purge in one piece leaves. A reached heap has honest classes, and
its pool was never closed while the object in slot 4294967295 was in a cluster. -/
theorem Reached.purge_in_pieces {c : Collector} (hr : Reached c) (hp : c.schema.Patient)
    {keep : Flags} (hok : ∃ full stats d, c.collect keep full = .ok (stats, d)) :
    ∃ stats d whole e, c.collect keep false = .ok (stats, d) ∧
      c.collect keep true = .ok (whole, e) ∧ e.isPurgePending = false ∧
      ∀ limits : Nat → Option Deadline, ∃ n calls f,
        d.purgeAll ((List.range (n + 1)).map limits) = .ok (calls, f) ∧
        calls.map (·.completed) = .replicate n false ++ [true] ∧
        (calls.map (·.purged)).sum = stats.unreachable ∧
        f.table = e.table ∧ f.clusters = e.clusters ∧ f.purge = e.purge := by
  obtain ⟨full, stats₀, d₀, hok⟩ := hok
  obtain ⟨n, b, hfinish, found, m, hcondemn, -⟩ := Collector.collect_ok hok
  -- the heap in which the dead are looked for has no purge pending
  obtain ⟨hpurged, hb⟩ := hr.standing.first_phase hr.sound hfinish
  have hm := hb.requested hcondemn
  have hpatient : m.schema.Patient := by
    rw [hm.schema, hpurged.schema]
    exact hp
  -- the purge in one piece
  obtain ⟨progress, p, hrun⟩ := PurgeState.run_ok (p := m.pending) none (fun _ => hpatient) hm.standing
  obtain ⟨hran, hend, -⟩ := PurgeState.ran_of_run (p := m.pending) hm.standing hrun
  obtain ⟨hwhole, -⟩ := Collector.ended_of_completed hm.standing hm.required hm.outside hran (hend rfl)
  have hfull := Collector.finishPurge_of_run hrun
  obtain ⟨stats, hlazy, hcount⟩ :=
    Collector.collect_of_phases false hfinish hcondemn rfl
  obtain ⟨whole, heager, -⟩ := Collector.collect_of_phases true hfinish hcondemn hfull
  refine ⟨stats, _, whole, _, hlazy, heager, ?_, fun limits => ?_⟩
  · rw [Collector.isPurgePending]
    exact congrArg Purge.required hwhole.purge
  · obtain ⟨n, calls, f, hcalls, hcompleted, hsum, hpieces⟩ := Collector.purgeAll_ends
      (c := { m with last := some stats }) hm.standing hpatient hm.required hm.outside limits
    refine ⟨n, calls, f, hcalls, hcompleted, ?_, hpieces.table.trans hwhole.table.symm,
      hpieces.clusters, hpieces.purge.trans hwhole.purge.symm⟩
    rw [hsum, hcount, Collector.condemn_unreachable hcondemn]
    exact hm.remaining

namespace Sample

/-- A class of objects that take notice of both stages and have to be asked twice between them. -/
def lingering : ClassSpec :=
  { node with lifecycle := ⟨some "begin", some (.afterPolls 2), some "finish"⟩ }

theorem lingering_honest : lingering.Honest := ⟨node_honest.fields, node_honest.collector⟩

theorem lingering_patient : lingering.Patient := by
  intro f hf gateOpen o
  cases hf
  exact ⟨2, rfl⟩

end Sample

open Sample in
/-- Two of three objects die, and calls without any time to spare free them. -/
theorem purge_in_pieces_lingering : ∃ c, Reached c ∧ ∃ stats d whole e,
    c.collect .empty false = .ok (stats, d) ∧ c.collect .empty true = .ok (whole, e) ∧
      stats.unreachable = 2 ∧ ∃ n calls f,
      d.purgeAll ((List.range (n + 1)).map fun _ => some Deadline.always) = .ok (calls, f) ∧
        f.table = e.table ∧ f.clusters = e.clusters := by
  have hrun : Collector.runs .serial lingering (nodes 3 ++ [.addRoot two]) (fun c =>
      (c.collect .empty false).toOption.any (·.1.unreachable == 2)) = true := by
    decide +kernel
  obtain ⟨c, hr, hp, htest⟩ :=
    Reached.of_runs_patient lingering_honest lingering_patient (by decide +kernel) hrun
  cases hx : c.collect .empty false with
  | error f =>
    rw [hx] at htest
    cases htest
  | ok found =>
    rw [hx] at htest
    obtain ⟨stats, d, whole, e, hd, he, -, hall⟩ :=
      hr.purge_in_pieces hp ⟨false, found.1, found.2, hx⟩
    obtain ⟨n, calls, f, hcalls, -, -, htable, hclusters, -⟩ := hall fun _ => some Deadline.always
    have hsame : found = (stats, d) := Except.ok.inj (hx.symm.trans hd)
    rw [hsame] at htest
    have hstats : stats.unreachable = 2 := by simpa [Except.toOption] using htest
    exact ⟨c, hr, stats, d, whole, e, hd, he, hstats, n, calls, f, hcalls, htable, hclusters⟩

end TracingHeap

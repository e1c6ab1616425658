import TracingHeap.Proofs.Purge.Account
import TracingHeap.Proofs.Workload.LiveNodes
import TracingHeap.Proofs.Collection.Repetition
import TracingHeap.Proofs.Collection.Returns
import TracingHeap.Workload.Stress

namespace TracingHeap

/-- The objects of a table, counted by the numbers of their slots. -/
theorem Table.Tidy.ncard_objects {t : Table} (ht : t.Tidy) {good : Nat → Prop}
    (hgood : ∀ x, good x ↔ ∃ h o, h.index = x ∧ t.get? h = some o) :
    t.objects.length = {x | good x}.ncard := by
  have hnodup : (t.objects.map fun o => o.handle.index).Nodup := by
    have hinj : Function.Injective Handle.index := fun a b he => Handle.ext_index he
    have := ht.nodup_map_objects.map hinj
    rwa [List.map_map] at this
  have hset : {x | good x} = ((t.objects.map fun o => o.handle.index).toFinset : Set Nat) := by
    ext x
    rw [Set.mem_ofPred_eq, List.coe_toFinset, Set.mem_ofPred_eq, hgood, List.mem_map]
    constructor
    · rintro ⟨h, o, rfl, ho⟩
      obtain ⟨p, hp, he⟩ := List.mem_map.mp (ht.mem_map_objects.mpr ⟨o, ho⟩)
      exact ⟨p, hp, congrArg Handle.index he⟩
    · rintro ⟨p, hp, rfl⟩
      obtain ⟨o, ho⟩ := ht.mem_map_objects.mp (List.mem_map_of_mem hp)
      exact ⟨p.handle, o, rfl, ho⟩
  rw [hset, Set.ncard_coe_finset, List.toFinset_card_of_nodup hnodup, List.length_map]

/-- The roots lead to objects that are there, and to clusters as a whole. -/
structure Sketch.Sane (k : Sketch) : Prop where
  room : k.count < 4294967296
  live : ∀ x, k.Live x → 0 < x ∧ x ≤ k.count
  whole : ∀ group ∈ k.groups, ∀ x ∈ group, ∀ y ∈ group, k.Live x → k.Live y

open GraphSpec in
/-- The graph that is asked for leads where it should. -/
theorem GraphSpec.sane {spec : GraphSpec}
    (hroom : spec.objects + spec.clusters * (spec.clusterSize + 1) < 4294967296) :
    spec.sketch.Sane := by
  have hcount : spec.sketch.count = spec.objects + spec.clusters * (spec.clusterSize + 1) := by
    change (Sketch.addChains _ _ _).count = _
    rw [Sketch.count_addChains, holders, length_drawHolders]
    rfl
  refine ⟨hcount ▸ hroom, fun x hx => ?_, fun group hgroup x hx y hy => live_of_group hgroup hx hy⟩
  rcases live_iff.mp hx with ⟨a, ha, rfl⟩ | ⟨j, i, hfed, hi, rfl⟩
  · have := ha.lt
    omega
  · have := Nat.mul_le_mul_right (spec.clusterSize + 1) hfed.lt
    rw [Nat.succ_mul] at this
    unfold chain
    omega

namespace Collector

variable {c d : Collector} {settings : Settings} {k : Sketch} {keep : Flags}

/-- Where there is no permanent pool, the clusters pass their check. -/
theorem verifyClusters_ok (hc : c.Sound) (hpool : ∀ h, c.table.isPermanent h = false) :
    c.verifyClusters = .ok () := by
  rcases verifyClusters_cases hc with ⟨hok, -⟩ | ⟨-, -, hnot⟩
  · exact hok
  · refine absurd (fun e _ hp => ?_) hnot
    rw [hpool] at hp
    cases hp

/-- A purge is followed by a collection that comes back, if there is no permanent pool. -/
theorem Idle.collect_returns (hc : c.Idle) (hs : c.schema.Streamed) (hp : c.schema.Patient)
    (hleast : 2 * max c.settings.minPerTask 1 < sizeLimit) (hbalanced : c.pool.inUse = 0)
    (hpool : ∀ h, c.table.isPermanent h = false) (keep : Flags) :
    ∃ stats, ∃ m e : Collector, ({ c with misses := 0 } : Collector).condemn keep = .ok (stats, m) ∧
      (∃ first, c.collect keep false = .ok (first, { m with last := some first }) ∧
        first.unreachable = stats.unreachable) ∧
      ∃ second, c.collect keep true = .ok (second, { e with last := some second }) := by
  let start : Collector := { c with misses := 0 }
  have hstart : start.Idle := ⟨⟨hc.sound.settled, hc.sound.purge⟩, hc.standing, hc.idle⟩
  obtain ⟨stats, m, hcondemn⟩ := hstart.condemn_returns hs hleast hbalanced keep
    (verifyClusters_ok hstart.sound hpool)
  have hm := hstart.requested hcondemn
  obtain ⟨progress, p, hrun⟩ :=
    PurgeState.run_ok (p := m.pending) none (fun _ => hm.schema.symm ▸ hp) hm.standing
  have hfinish := finishPurge_idle hstart.idle
  obtain ⟨first, hfirst, hcount⟩ := collect_of_phases false hfinish hcondemn rfl
  obtain ⟨second, hsecond, -⟩ := collect_of_phases true hfinish hcondemn (finishPurge_of_run hrun)
  exact ⟨stats, m, _, hcondemn, ⟨first, hfirst, hcount⟩, second, hsecond⟩

namespace Shows

variable (hs : c.Shows settings k)
include hs

/-- What the links lead to is closed under the ways in which one object keeps another. -/
theorem closed (hk : k.Sane) :
    Closed c.schema c.table c.clusters fun h => k.Live h.index where
  strong h g hh _ hedge _ _ := hh.step (hs.edge_iff.mp hedge)
  peers x hx _ h hh hlive g hg := by
    obtain ⟨-, -, group, hgroup, hin⟩ := hs.clusters x hx
    exact hk.whole group hgroup _ (hin h hh) _ (hin g hg) hlive
  mutables x hx _ _ m hm := by
    rw [(hs.clusters x hx).2.1] at hm
    cases hm
  referenced x hx _ _ r hr := by
    rw [(hs.clusters x hx).1] at hr
    cases hr

theorem isSeed_iff {h : Handle} {o : Object} (ho : c.table.get? h = some o) :
    o.isSeed (Flags.empty.union Flags.keep) = true ↔ k.roots h.index := by
  have hnode := hs.node ho
  rw [← hs.handle_eq ho, ← hnode.root, Object.isSeed]
  rcases hnode.flags with hf | hf | hf <;> simp only [Object.has, Object.clear, hf] <;> decide

/-- No object is killed. -/
theorem alive (h : Handle) : c.table.has h .pendingKill = false := by
  cases ho : c.table.get? h with
  | none => simp [Table.has, ho]
  | some o =>
    rw [Table.has, ho]
    rcases (hs.node ho).flags with hf | hf | hf <;> simp only [Object.has, hf] <;> decide

/-- The search for the dead spares just what the links lead to from the roots. -/
theorem awake_iff (hk : k.Sane) {stats : Statistics}
    (hcondemn : ({ c with misses := 0 } : Collector).condemn .empty = .ok (stats, d)) {h : Handle} :
    d.table.Awake h ↔ k.Live h.index := by
  have hsound : ({ c with misses := 0 } : Collector).Sound :=
    ⟨hs.reached.sound.settled, hs.reached.sound.purge⟩
  obtain ⟨-, -, -, hd⟩ := (condemn_spec hsound (hs.closed hk)
    fun g o ho _ _ hseed => ⟨g.index, (hs.isSeed_iff ho).mp hseed, .refl⟩).ok hcondemn
  refine ⟨fun ha => hd.within h ha (hs.isPermanent h), ?_⟩
  rintro ⟨r, hr, hpath⟩
  generalize hx : h.index = x at hpath
  induction hpath generalizing h with
  | refl =>
    obtain ⟨o, ho, -⟩ := hs.nodes h (hx ▸ hs.bounded.roots _ hr)
    exact hd.seeds h o ho (hs.isPermanent h) ((hs.isSeed_iff ho).mpr (hx ▸ hr))
  | @tail y z hpath hlink ih =>
    obtain ⟨hpos, hle⟩ := hk.live y ⟨r, hr, hpath⟩
    let g : Handle := ⟨y, hpos, Nat.lt_of_le_of_lt hle hk.room⟩
    exact hd.strong g h (ih (h := g) rfl) (hs.isPermanent g) (hs.edge_iff.mpr (hx ▸ hlink)) (hs.alive h)

end Shows

end Collector

/-- A purge that has only been requested, taken in steps, with a collection after it. The steps free all
that was found dead; the collection finds nothing, and what is left is what the search has spared. -/
theorem Reached.steps_collect {c : Collector} (hr : Reached c) (hidle : c.purge.required = false)
    (hlock : c.lock = .free) (hs : c.schema.Streamed) (hp : c.schema.Prompt)
    (hleast : 2 * max c.settings.minPerTask 1 < sizeLimit)
    (hpool : ∀ h, c.table.isPermanent h = false) (keep : Flags) (limit : Option Duration)
    (clocks : Clocks) : ∃ stats, ∃ m d : Collector, ∃ first freed f second g,
      ({ c with misses := 0 } : Collector).condemn keep = .ok (stats, m) ∧
      c.collect keep false = .ok (first, d) ∧ d.settings = c.settings ∧
      Collector.purgeSteps limit clocks (Stress.mostSteps d.table) d = .ok (freed, true, f) ∧
      f.collect keep true = .ok (second, g) ∧ freed.sum = first.unreachable ∧
      second.unreachable = 0 ∧ ∃ t : Table, t.Tidy ∧ g.objectCount = t.objects.length ∧
        ∀ h, (∃ o, t.get? h = some o) ↔ m.table.Awake h := by
  let start : Collector := { c with misses := 0 }
  have hstart : start.Idle := ⟨⟨hr.sound.settled, hr.sound.purge⟩, hr.standing, hidle⟩
  obtain ⟨stats, m, -, hcondemn, ⟨first, hfirst, hcount⟩, -⟩ :=
    Collector.Idle.collect_returns ⟨hr.sound, hr.standing, hidle⟩ hs hp.patient hleast hr.balanced
      hpool keep
  have hm := hstart.requested hcondemn
  obtain ⟨hsound, hschema, hsettings, hboundary⟩ := hstart.sound.condemned hcondemn
  let d : Collector := { m with last := some first }
  have hcall : c.perform (.collect keep false) = .ok (.collected first, d) := by
    have hheld : c.isHeld = false := by
      rw [Collector.isHeld, hlock]
      rfl
    exact Collector.perform_collect hheld hfirst
  have hallowed : (Operation.collect keep false).Allowed c := trivial
  have hd : Reached d := hr.step hallowed hcall
  have hcalls : d.pending.callsLeft ≤ Stress.mostSteps d.table := by
    have hrouted : d.pending.purge.routed = false := hm.routed
    have hleft : d.pending.left ≤ d.table.capacity := Nat.sub_le ..
    unfold PurgeState.callsLeft Stress.mostSteps
    rw [hrouted]
    change d.pending.left + d.table.capacity + 2 ≤ _
    omega
  obtain ⟨freed, f, hsteps, hsum, hended, hf, hpurged⟩ :=
    Collector.purgeSteps_ends hd (hm.schema.symm ▸ hp) hm.required hm.outside hm.parked limit clocks
      hcalls
  have hnone : f.purge.required = false := congrArg Purge.required hended.purge
  have hempty : ∀ h, f.table.isPermanent h = false := fun h =>
    (hpurged.spares.isPermanent h).trans ((hboundary.isPermanent h).trans (hpool h))
  obtain ⟨-, -, e, -, -, second, hsecond⟩ :=
    Collector.Idle.collect_returns ⟨hf.sound, hf.standing, hnone⟩
      (hpurged.schema.trans hschema ▸ hs) (hpurged.schema.trans hschema ▸ hp.patient)
      (hpurged.settings.trans hsettings ▸ hleast) hf.balanced hempty keep
  -- what the two collections have in common
  let rested : Collector := { f with misses := 0 }
  have hrested : rested.Idle := ⟨⟨hf.sound.settled, hf.sound.purge⟩, hf.standing, hnone⟩
  have hspared : m.Purged rested := ⟨hpurged.spares, hpurged.schema, hpurged.clusters,
    hpurged.settings, hrested.sound⟩
  obtain ⟨_, _, _, _, _, _, _, _, a⟩ := hstart.collected hr.paired hcondemn hspared hrested
  obtain ⟨hzero, -, -, -, -, hsame⟩ := a.again hf.paired hsecond
  refine ⟨stats, m, d, first, freed, f, second, _, hcondemn, hfirst, hsettings, hsteps, hsecond,
    ?_, hzero, f.table, hf.sound.settled.orderly.tidy, ?_, fun h => ⟨?_, fun ha => ?_⟩⟩
  · rw [hsum, hcount, Collector.condemn_unreachable hcondemn]
    exact hm.remaining
  · exact (congrArg Table.live hsame).trans hf.counted
  · rintro ⟨o, ho⟩
    exact hpurged.spares.awake_back ⟨o, ho, (hf.standing.idle hnone).2 h o ho (hempty h)⟩
  · obtain ⟨o, ho, -⟩ := hpurged.spares.awake ha
    exact ⟨o, ho⟩

namespace Stress

variable {settings : Settings}

/-- A stress run on a heap that shows a graph. -/
theorem finish_of_shows {c : Collector} {k : Sketch} (hs : c.Shows settings k) (hk : k.Sane)
    (clocks : Clocks) {limit : Duration} (hlimit : settings.purgeLimit = .ok limit)
    (hleast : 2 * max settings.minPerTask 1 < sizeLimit) :
    ∃ first d rest, c.collect .empty false = .ok (first, d) ∧ finish clocks d = .ok rest ∧
      rest.purged = first.unreachable ∧ rest.second.unreachable = 0 ∧
      rest.collector.objectCount = {x | k.Live x}.ncard := by
  obtain ⟨stats, m, d, first, freed, f, second, g, hcondemn, hfirst, hsettings, hsteps, hsecond, hsum,
      hzero, t, htidy, hlive, hleft⟩ :=
    hs.reached.steps_collect hs.idle hs.lock hs.schema.streamed hs.schema.prompt
      (hs.settings.symm ▸ hleast) hs.isPermanent .empty (some limit) clocks
  refine ⟨first, d, ⟨freed, second, g⟩, hfirst, ?_, ?_, hzero, ?_⟩
  · unfold finish
    rw [hsettings, hs.settings, hlimit]
    change (Collector.purgeSteps .. >>= _) = _
    rw [hsteps]
    change (f.collect .empty true >>= _) = _
    rw [hsecond]
    rfl
  · rw [Rest.purged, ← hsum, List.sum_eq_foldl]
  · refine hlive.trans (htidy.ncard_objects fun x => ⟨fun hx => ?_, ?_⟩)
    · obtain ⟨hpos, hle⟩ := hk.live x hx
      let h : Handle := ⟨x, hpos, Nat.lt_of_le_of_lt hle hk.room⟩
      obtain ⟨o, ho⟩ := (hleft h).mpr ((hs.awake_iff hk hcondemn).mpr hx)
      exact ⟨h, o, rfl, ho⟩
    · rintro ⟨h, o, rfl, ho⟩
      exact (hs.awake_iff hk hcondemn).mp ((hleft h).mp ⟨o, ho⟩)

/-- A stress run. Whatever graph is asked for, it is built and collected, and the purge comes to its
end within the steps it is given, however far its clock lets each step get, with as many objects freed as
were found unreachable. The second collection finds nothing; what is left are the nodes that the links lead
to from the roots, and the clusters that are fed by one of them. -/
theorem stress_ends (processors : Nat) (clocks : Clocks) {spec : GraphSpec}
    (hroom : spec.objects + spec.clusters * (spec.clusterSize + 1) < 4294967296) {limit : Duration}
    (hlimit : settings.purgeLimit = .ok limit) (hleast : 2 * settings.minPerTask < sizeLimit) :
    ∃ first d rest, collect settings processors spec = .ok (first, d) ∧
      finish clocks d = .ok rest ∧
      run settings processors clocks spec = (first.lines ++ rest.lines, none) ∧
      rest.purged = first.unreachable ∧ rest.second.unreachable = 0 ∧
      rest.collector.objectCount = spec.survivors := by
  obtain ⟨c, hbuilt, hs⟩ := withGraph_shows settings processors hroom
  have hbatch : 2 * max settings.minPerTask 1 < sizeLimit := by
    rw [sizeLimit] at hleast ⊢
    omega
  obtain ⟨first, d, rest, hfirst, hrest, hpurged, hzero, hlive⟩ :=
    finish_of_shows hs (GraphSpec.sane hroom) clocks hlimit hbatch
  have hcollect : collect settings processors spec = .ok (first, d) := by
    unfold collect
    rw [hbuilt]
    change (c.collect .empty false).mapError _ = _
    rw [hfirst]
    rfl
  refine ⟨first, d, rest, hcollect, hrest, ?_, hpurged, hzero, hlive.trans GraphSpec.ncard_live⟩
  unfold run
  rw [hcollect]
  dsimp only
  rw [hrest]

/-- Three nodes with two links each, and a cluster of two more. -/
theorem stress_ends_small : ∃ first d rest,
    collect .default 2 ⟨3, 2, 1, 1, 1, 7⟩ = .ok (first, d) ∧ finish .quick d = .ok rest ∧
      rest.purged = first.unreachable ∧ rest.second.unreachable = 0 ∧
      rest.collector.objectCount = GraphSpec.survivors ⟨3, 2, 1, 1, 1, 7⟩ := by
  have hlimit : Settings.default.purgeLimit = .ok ⟨2000000⟩ := by decide +kernel
  obtain ⟨first, d, rest, hfirst, hrest, -, hcounts⟩ :=
    @stress_ends .default 2 .quick ⟨3, 2, 1, 1, 1, 7⟩ (by decide) _ hlimit (by decide)
  exact ⟨first, d, rest, hfirst, hrest, hcounts⟩

end Stress

end TracingHeap

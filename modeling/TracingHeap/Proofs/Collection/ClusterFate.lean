import TracingHeap.Proofs.Purge.Pending

namespace TracingHeap

def Cluster.Kept (e : Cluster) (cs : Clusters) : Prop :=
  ∃ e' ∈ cs.list, e'.root = e.root ∧ e'.members = e.members

/-- The objects of the cluster are on their own, and a member survives that was referenced from
outside. -/
structure Cluster.BrokenUp (e : Cluster) (t : Table) : Prop where
  alone : ∀ h ∈ e.objects, t.rootOf h = none
  survivor : ∃ m ∈ e.members, t.Free m ∧ t.has m .reachableInCluster = true

namespace Table

/-- Objects on their own stay so, and claimed objects that were members stay claimed. -/
structure Loosens (t t' : Table) : Prop where
  alone : ∀ h, t.rootOf h = none → t'.rootOf h = none
  survives : ∀ h, t.Free h → t.has h .reachableInCluster = true →
    t'.Free h ∧ t'.has h .reachableInCluster = true

namespace Loosens

variable {t t' t'' : Table}

theorem refl (t : Table) : t.Loosens t := ⟨fun _ => id, fun _ hf hr => ⟨hf, hr⟩⟩

theorem trans (a : t.Loosens t') (b : t'.Loosens t'') : t.Loosens t'' := by
  refine ⟨fun h hn => b.alone h (a.alone h hn), fun h hf hr => ?_⟩
  obtain ⟨hf', hr'⟩ := a.survives h hf hr
  exact b.survives h hf' hr'

theorem brokenUp {e : Cluster} (a : t.Loosens t') (hb : e.BrokenUp t) : e.BrokenUp t' := by
  obtain ⟨m, hm, hf, hr⟩ := hb.survivor
  exact ⟨fun h hh => a.alone h (hb.alone h hh), m, hm, a.survives m hf hr⟩

end Loosens

variable {s : Schema} {t t' : Table}

theorem Advances.loosens (a : t.Advances s t') : t.Loosens t' := by
  refine ⟨fun h hn => (a.rootOf h).trans hn, fun h hf hr => ⟨a.free hf, ?_⟩⟩
  obtain ⟨o, ho, -⟩ := hf
  obtain ⟨o', ho', hadv⟩ := a.kept ho
  rw [has_of_get? ho] at hr
  rw [has_of_get? ho']
  exact hadv.inCluster hr

theorem Drops.loosens (d : t.Drops s t') : t.Loosens t' := by
  have hhas : ∀ {h o o'}, (o.Thins s (fun g => t.isUnreachable g = true) o' ∧
      o'.owner = o.owner ∧ o'.flags = o.flags) → t.get? h = some o → ∀ f, o'.has f = o.has f :=
    fun hr _ f => congrArg (Flags.has · f) hr.2.2
  refine ⟨fun h hn => ?_, fun h hf hr => ?_⟩
  · rw [rootOf_evolves d (fun _ _ _ _ hr => hr.2.1) (fun _ _ _ ho hr => hhas hr ho _), hn]
  · obtain ⟨o, ho, hn, hu⟩ := hf
    obtain ⟨o', ho', hd⟩ := d.kept h o ho
    rw [has_of_get? ho] at hr
    rw [has_of_get? ho', hhas hd ho]
    exact ⟨⟨o', ho', hd.2.1.trans hn, (hhas hd ho _).trans hu⟩, hr⟩

theorem Spares.loosens (a : t.Spares t') : t.Loosens t' := by
  refine ⟨fun h hn => ?_, fun h hf hr => ?_⟩
  · cases ho' : t'.get? h with
    | none => simp [rootOf, ho']
    | some o' =>
      obtain ⟨o, ho, hw⟩ := a.back h o' ho'
      rw [Table.rootOf_eq ho] at hn
      rw [Table.rootOf_eq ho', hw.owner, hw.flag .clusterRoot (by decide) (by decide)]
      exact hn
  · obtain ⟨o, ho, hn, hu⟩ := hf
    have ho' := a.same h o ho hu
    rw [has_of_get? ho] at hr
    exact ⟨⟨o, ho', hn, hu⟩, by rwa [has_of_get? ho']⟩

end Table

section

variable {s : Schema} {keeping : Bool} {good gray : Handle → Prop} {weak : Site → Prop}
  {t t' t'' : Table} {cs cs' cs'' : Clusters} {c e : Cluster}

theorem Cluster.Kept.of_mem (he : e ∈ cs.list) : e.Kept cs := ⟨e, he, rfl, rfl⟩

/-- A cluster stays registered when another one is dissolved. -/
theorem Cluster.Kept.dissolve (hk : e.Kept cs) (hne : e.root ≠ c.root)
    (hb : Clusters.Becomes (fun d d' => d.Refreshed s t c.root d') (cs.erase c.root) cs') :
    e.Kept cs' := by
  obtain ⟨d, hd, hroot, hmembers⟩ := hk
  obtain ⟨d', hd', hR, hroot'⟩ := hb.forth_erase hd (hroot ▸ hne)
  exact ⟨d', hd', hroot'.trans hroot, hR.members.trans hmembers⟩

theorem loosens_disband (ho : Orderly s t cs) (hc : c ∈ cs.list)
    (hu : t.isUnreachable c.root = true) : t.Loosens (c.disband t) := by
  refine ⟨fun h hn => ?_, fun h hf hr => ⟨free_disband ho hc hu hf, ?_⟩⟩
  · rw [rootOf_disband ho hc]
    split
    · rfl
    · exact hn
  · have hout := get?_disband_of_not_mem ho hc (not_mem_of_free ho.enrolled hc hu hf)
    simpa only [Table.has, hout] using hr

/-- Dissolving a dead cluster breaks it up if a member was referenced from outside. -/
theorem brokenUp_disband (ho : Orderly s t cs) (hc : c ∈ cs.list)
    (hout : Clusters.outlived t c = true) : c.BrokenUp (c.disband t) := by
  obtain ⟨-, m, hm, hr⟩ := outlived_iff.mp hout
  refine ⟨fun h hh => ?_, m, hm, free_released ho hc hm hr, ?_⟩
  · rw [rootOf_disband ho hc, if_pos hh]
  · obtain ⟨o, hget, -⟩ := ho.enrolled.member c hc m hm
    rw [Table.has_of_get? (get?_disband_member ho hc hm hget), o.has_release (by decide) (by decide)]
    rwa [Table.has_of_get? hget] at hr

/-- Some clusters may have been broken up, the others are registered as they were. -/
structure Fragments (t : Table) (cs : Clusters) (t' : Table) (cs' : Clusters) : Prop where
  loosens : t.Loosens t'
  clusters : ∀ e ∈ cs.list, e.Kept cs' ∨ e.BrokenUp t'

namespace Fragments

theorem of_loosens (a : t.Loosens t') : Fragments t cs t' cs := ⟨a, fun _ he => .inl (.of_mem he)⟩

theorem trans (a : Fragments t cs t' cs') (b : Fragments t' cs' t'' cs'') :
    Fragments t cs t'' cs'' := by
  refine ⟨a.loosens.trans b.loosens, fun e he => ?_⟩
  rcases a.clusters e he with ⟨d, hd, hroot, hmembers⟩ | hbroken
  · rcases b.clusters d hd with ⟨d', hd', hroot', hmembers'⟩ | hbroken
    · exact .inl ⟨d', hd', hroot'.trans hroot, hmembers'.trans hmembers⟩
    · refine .inr ⟨fun h hh => hbroken.alone h ?_, hmembers ▸ hbroken.survivor⟩
      rwa [Cluster.objects, hroot, hmembers]
  · exact .inr (b.loosens.brokenUp hbroken)

end Fragments

/-- Dissolving an outlived cluster breaks up that cluster and no other. -/
theorem Breaking.fragments {t₀ : Table} {cs₀ : Clusters} {roots left : List Handle} {r : Handle}
    {found : List Handle × Table × Clusters}
    (b : Breaking s keeping good weak t₀ cs₀ roots (r :: left) found) :
    Yields (Clusters.dissolveInto s found r) fun next =>
      Fragments found.2.1 found.2.2 next.2.1 next.2.2 := by
  obtain ⟨survivors, t, cs⟩ := found
  obtain ⟨c, hc, rfl, hout⟩ := b.outlived r (List.mem_cons_self ..)
  obtain ⟨hu, -⟩ := outlived_iff.mp hout
  have ho := b.tracing.orderly
  unfold Clusters.dissolveInto
  refine (b.tracing.dissolve_spec hc hu b.free).bind ?_
  rintro ⟨c?, t', cs'⟩ _ ⟨hsome, htab, hb, -⟩
  dsimp only at hsome htab hb
  subst hsome
  subst htab
  refine ⟨loosens_disband ho hc hu, fun e he => ?_⟩
  by_cases hroot : e.root = c.root
  · rw [Clusters.eq_of_root ho.enrolled.distinct he hc hroot]
    exact .inr (brokenUp_disband ho hc hout)
  · exact .inl (Cluster.Kept.dissolve (.of_mem he) hroot hb)

theorem dissolveOutlived_fragments (p : Tracing s cs keeping good (fun _ => False) weak t) :
    Yields (cs.dissolveOutlived s t) fun found => Fragments t cs found.2.2.1 found.2.2.2 := by
  let roots := (cs.list.filter (Clusters.outlived t)).map (·.root)
  have hfold := Ends.foldlM (f := Clusters.dissolveInto s)
    (fun left found => Breaking s keeping good weak t cs roots left found ∧
      Fragments t cs found.2.1 found.2.2)
    (fun r left found b => (b.1.step.and b.1.fragments).mono fun next hn => ⟨hn.1, b.2.trans hn.2⟩)
    ⟨Breaking.start p, .of_loosens (.refl t)⟩
  unfold Clusters.dissolveOutlived
  exact hfold.bind fun found _ b => b.2

/-- The rounds of a mark break clusters up, and leave the others registered. -/
theorem markRounds_fragments {plan : MarkPlan} (hleast : 0 < plan.waves.least) (fuel : Nat) :
    ∀ (frontier : List Handle) (r : MarkResult),
    Tracing s r.clusters plan.memberKeepsCluster good (· ∈ frontier) (· ∈ r.weak) r.table →
    Yields (markRounds s plan fuel frontier r) fun r' =>
      Fragments r.table r.clusters r'.table r'.clusters := by
  induction fuel with
  | zero =>
    intro frontier r _
    rw [markRounds]
    exact id
  | succ fuel ih =>
    intro frontier r p
    rw [markRounds]
    refine (Tracing.trace_round hleast p).bind ?_
    rintro traced _ ⟨hbetween, hadv, -⟩
    refine ((dissolveOutlived_spec hbetween).and (dissolveOutlived_fragments hbetween)).bind ?_
    rintro ⟨count, survivors, table, clusters⟩ _ ⟨⟨htracing, -⟩, hfragments⟩
    dsimp only at htracing hfragments ⊢
    have hround : Fragments r.table r.clusters table clusters :=
      Fragments.trans (.of_loosens hadv.loosens) hfragments
    split
    · exact hround
    · exact (ih survivors _ htracing).mono fun r' hr' => hround.trans hr'

theorem mark_fragments {plan : MarkPlan} (hleast : 0 < plan.waves.least) (hs : Settled s t cs)
    (pool : ScratchPool) : Yields (mark s plan t cs pool) fun r =>
      ∀ e ∈ cs.list, e.Kept r.clusters ∨ e.BrokenUp r.table := by
  unfold mark
  apply (seed_spec hs.orderly.tidy hs.orderly.unkilled).bind
  rintro ⟨seeds, considered, t'⟩ _ ⟨ev, hnone, hseeds⟩
  have hp : Tracing s cs plan.memberKeepsCluster (fun _ => True) (· ∈ seeds)
      (· ∈ (#[] : Array Site)) t' :=
    hs.tracing ev hnone .all _ _ hseeds fun _ _ => trivial
  apply (markRounds_fragments hleast (cs.size + 1) seeds
    ⟨t', cs, pool.acquire, #[], considered, 0, 0, 0, plan.waves.workers.isSome⟩ hp).bind
  intro r _ hr
  dsimp only
  split
  · exact id
  · exact hr.clusters

/-- A cluster goes with its root when no member was referenced from outside. -/
theorem Crumbling.kept {t₀ : Table} {cs₀ : Clusters} {left : List Handle} {r : Handle}
    {found : Table × Clusters}
    (b : Crumbling s keeping good weak t₀ cs₀ (r :: left) found)
    (hk : ∀ e ∈ cs₀.list, found.1.Awake e.root → e.Kept found.2) :
    Yields (do return (← found.2.dissolve s found.1 r).2) fun next =>
      found.1.Loosens next.1 ∧ ∀ e ∈ cs₀.list, next.1.Awake e.root → e.Kept next.2 := by
  obtain ⟨t, cs⟩ := found
  obtain ⟨c, hc, hroot, hu⟩ := b.dead r (List.mem_cons_self ..)
  dsimp only at hc hu hk
  subst hroot
  have ho := b.tracing.orderly
  apply (b.tracing.dissolve_spec hc hu fun h hg => hg.elim).bind
  rintro ⟨c?, t', cs'⟩ _ ⟨-, htab, hb, -⟩
  dsimp only at htab hb
  subst htab
  refine ⟨loosens_disband ho hc hu, fun e he ha => ?_⟩
  have hn := not_mem_of_awake_disband ho hc hu (fun _ => b.not_reached hc hu) ha
  have hawake : t.Awake e.root := by
    unfold Table.Awake at ha
    rwa [get?_disband_of_not_mem ho hc hn] at ha
  exact (hk e he hawake).dissolve (fun heq => hn (Cluster.mem_objects.mpr (.inl heq))) hb

theorem dissolveUnreachable_kept (p : Tracing s cs keeping good (fun _ => False) weak t)
    (hout : ∀ c ∈ cs.list, Clusters.outlived t c = false) :
    Yields (cs.dissolveUnreachable s t) fun found =>
      t.Loosens found.2.1 ∧ ∀ e ∈ cs.list, found.2.1.Awake e.root → e.Kept found.2.2 := by
  have hfold := Ends.foldlM
    (f := fun (found : Table × Clusters) r => do return (← found.2.dissolve s found.1 r).2)
    (fun left found => Crumbling s keeping good weak t cs left found ∧ t.Loosens found.1 ∧
      ∀ e ∈ cs.list, found.1.Awake e.root → e.Kept found.2)
    (fun r left found b => (b.1.step.and (b.1.kept b.2.2)).mono fun next hn =>
      ⟨hn.1, b.2.1.trans hn.2.1, hn.2.2⟩)
    ⟨Crumbling.start p hout, .refl t, fun e he _ => .of_mem he⟩
  unfold Clusters.dissolveUnreachable
  exact Ends.bind hfold fun found _ b => b.2

end

namespace Collector

variable {c d : Collector} {keep : Flags} {full : Bool} {stats : Statistics} {e : Cluster}

/-- Finding the dead leaves a cluster registered if its root survives, unless it was broken up. Where
references to members keep clusters alive, none is. -/
theorem condemn_kept (hc : c.Sound) (hok : c.condemn keep = .ok (stats, d))
    (he : e ∈ c.clusters.list) (ha : d.table.Awake e.root) : e.Kept d.clusters ∨
      c.settings.memberKeepsCluster = false ∧ e.BrokenUp d.table := by
  obtain ⟨-, r, hmark, unhashed, t, cs, hdissolve, t', cleared, hclear, rfl, -⟩ := condemn_ok hok
  obtain ⟨hrested, -, -, -, hsame⟩ := (mark_spec (c.markPlan_least keep) hc.settled .all
    (fun _ _ _ _ _ _ => trivial) c.pool).ok hmark
  obtain ⟨j, -⟩ := (dissolveUnreachable_spec hrested.tracing hrested.outlived).ok hdissolve
  obtain ⟨hloosens, hkept⟩ :=
    (dissolveUnreachable_kept hrested.tracing hrested.outlived).ok hdissolve
  obtain ⟨hdrops, -⟩ := (clearWeak_spec j.tracing.orderly r.weak).ok hclear
  -- a cluster that the mark has left registered stands or falls with its root
  have hstands : e.Kept r.clusters → e.Kept cs := by
    rintro ⟨d, hd, hroot, hmembers⟩
    obtain ⟨d', hd', hroot', hmembers'⟩ := hkept d hd (hroot ▸ hdrops.awake_back ha)
    exact ⟨d', hd', hroot'.trans hroot, hmembers'.trans hmembers⟩
  cases hk : c.settings.memberKeepsCluster with
  | true =>
    refine .inl (hstands ?_)
    rw [hsame (.inl hk)]
    exact .of_mem he
  | false =>
    rcases (mark_fragments (c.markPlan_least keep) hc.settled c.pool).ok hmark e he with hin | hbroken
    · exact .inl (hstands hin)
    · exact .inr ⟨rfl, (hloosens.trans hdrops.loosens).brokenUp hbroken⟩

/-- A cluster whose root survives a collection is registered as it was, and all of it survives, unless
the mark has broken it up. That happens only where references to members do not keep clusters alive,
and only if a member was referenced from outside: such a member survives as well, and it and the root
are on their own from then on. -/
theorem cluster_of_awake_root (hr : Reached c) (hok : c.collect keep full = .ok (stats, d))
    (he : e ∈ c.clusters.list) (ha : d.table.Awake e.root) :
    e.Kept d.clusters ∧ (∀ h ∈ e.objects, d.table.Awake h) ∨
      c.settings.memberKeepsCluster = false ∧ e.BrokenUp d.table := by
  obtain ⟨n, b, hfinish, found, m, hcondemn, freed, f, hend, -, rfl⟩ := collect_ok hok
  obtain ⟨hb, -⟩ := hr.standing.first_phase hr.sound hfinish
  have hm : m.Sound := ((condemn_spec hb.sound .all (fun _ _ _ _ _ _ => trivial)).ok hcondemn).1
  have hpurged : m.Purged f := by
    cases full with
    | true => exact (finishPurge_spec hm).ok hend
    | false =>
      cases hend
      exact .refl hm
  have hsettings : b.settings = c.settings := hb.settings
  have hin : e ∈ b.clusters.list := by
    rw [hb.clusters]
    exact he
  rcases condemn_kept hb.sound hcondemn hin (hpurged.spares.awake_back ha) with hkept | ⟨hk, hbroken⟩
  · left
    obtain ⟨d, hd, hroot, hmembers⟩ := id hkept
    change e.Kept f.clusters ∧ ∀ h ∈ e.objects, f.table.Awake h
    rw [hpurged.clusters]
    refine ⟨hkept, fun h hh => hpurged.spares.awake (hm.settled.awake_objects hd ?_)⟩
    rwa [Cluster.objects, hroot, hmembers]
  · exact .inr ⟨hsettings ▸ hk, hpurged.spares.loosens.brokenUp hbroken⟩

end Collector

namespace Sample

/-- Two clusters, each with a member that a rooted object refers to. Nothing refers to their roots but
the referenced member of the second cluster, which refers to the root of the first. -/
def latecomer : List Operation :=
  nodes 7 ++ [.formCluster one [two, three], .formCluster four [five], .addRoot six, .addRoot seven,
    .setReference six 0 (some two), .setReference seven 0 (some five), .setReference five 0 (some one)]

end Sample

namespace Collector

/-- Both clusters are broken up before the member that survives the second one is traced. -/
theorem cluster_of_awake_root_latecomer : ∃ (c d : Collector) (stats : Statistics) (e : Cluster),
    Reached c ∧ c.collect .empty true = .ok (stats, d) ∧ e ∈ c.clusters.list ∧
      d.table.Awake e.root ∧ e.BrokenUp d.table := by
  have hrun : runs .serial Sample.node Sample.latecomer (fun c =>
      c.clusters.list.any (fun e => decide (e.root = Sample.one)) && c.leaves .empty true fun d =>
        decide (d.table.Awake Sample.one) && decide (d.clusters.list = [])) = true := by
    decide +kernel
  obtain ⟨c, hr, hc⟩ := Reached.of_runs Sample.node_honest (by decide) hrun
  obtain ⟨hany, hleaves⟩ := Bool.and_eq_true_iff.mp hc
  obtain ⟨e, he, hroot⟩ := List.any_eq_true.mp hany
  obtain ⟨stats, d, hd, htest⟩ := collect_of_leaves hleaves
  simp only [Bool.and_eq_true, decide_eq_true_eq] at htest hroot
  obtain ⟨hawake, hnone⟩ := htest
  rw [← hroot] at hawake
  refine ⟨c, d, stats, e, hr, hd, he, hawake, ?_⟩
  rcases cluster_of_awake_root hr hd he hawake with ⟨⟨e', he', -⟩, -⟩ | ⟨-, hbroken⟩
  · rw [hnone] at he'
    cases he'
  · exact hbroken

/-- The root of a cluster survives a collection, and yet the cluster is no longer registered and one
of its members is flagged. -/
theorem dissolved_though_root_survives : ∃ (c d : Collector) (stats : Statistics) (e : Cluster),
    Reached c ∧ c.collect .empty false = .ok (stats, d) ∧ e ∈ c.clusters.list ∧
      d.table.Awake e.root ∧ d.clusters.list = [] ∧
      ∃ m ∈ e.members, d.table.isUnreachable m = true := by
  have hrun : runs .serial Sample.node Sample.latecomer (fun c =>
      c.clusters.list.any (fun e => decide (e.root = Sample.one) &&
        e.members.contains Sample.three) && c.leaves .empty false fun d =>
          decide (d.table.Awake Sample.one) && decide (d.clusters.list = []) &&
            d.table.isUnreachable Sample.three) = true := by
    decide +kernel
  obtain ⟨c, hr, hc⟩ := Reached.of_runs Sample.node_honest (by decide) hrun
  obtain ⟨hany, hleaves⟩ := Bool.and_eq_true_iff.mp hc
  obtain ⟨e, he, htold⟩ := List.any_eq_true.mp hany
  obtain ⟨stats, d, hd, htest⟩ := collect_of_leaves hleaves
  simp only [Bool.and_eq_true, decide_eq_true_eq] at htest htold
  obtain ⟨⟨hawake, hnone⟩, hu⟩ := htest
  rw [← htold.1] at hawake
  exact ⟨c, d, stats, e, hr, hd, he, hawake, hnone, Sample.three,
    List.contains_iff_mem.mp htold.2, hu⟩

end Collector

end TracingHeap

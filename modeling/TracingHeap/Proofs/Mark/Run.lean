import TracingHeap.Proofs.Mark.Seeds

namespace TracingHeap

section

variable {s : Schema} {t t' : Table} {cs : Clusters} {keep : Flags} {good : Handle → Prop}
  {seeds : List Handle}

namespace Settled

variable (hs : Settled s t cs) (ev : t.Evolves (t.SeededAs keep) t')

include ev in
theorem awake_permanent_seeded {h : Handle} (hp : t.isPermanent h = true) (ha : t.Awake h) :
    t'.Awake h := by
  obtain ⟨o, hget, hu⟩ := ha
  obtain ⟨o', ho', he⟩ := ev.kept h o hget
  exact ⟨o', ho', (he.permanent hp) ▸ hu⟩

include hs ev in
theorem edge_seeded {h g : Handle} {k : Strength} (he : Edge s t' h k g) : Edge s t h k g := by
  have hthin : ∀ h o o', t.SeededAs keep h o o' → o.Thins s (fun _ => False) o' :=
    fun _ _ _ hseeded => hseeded.thins
  exact he.back hs.orderly.regular hs.orderly.fits ev hthin

include hs ev in
theorem orderly_seeded : Orderly s t' cs := by
  have hthin : ∀ h o o', t.SeededAs keep h o o' → o.Thins s (fun _ => False) o' :=
    fun _ _ _ hseeded => hseeded.thins
  apply hs.orderly.evolves ev hthin (fun _ _ _ _ he => he.owner)
    (fun _ _ _ _ he => he.has (by decide) (by decide) (by decide))
  · intro h o o' _ he hown hu
    rcases he.cases with heq | heq
    · exact heq ▸ hu
    · rw [heq, Object.isUnreachable_seeded hu, hown]
      simp
  · intro h o o' _ he hk hr
    rw [he.has (by decide) (by decide) (by decide)] at hr ⊢
    exact hk hr

include hs ev in
theorem closed_seeded (hcl : Closed s t cs good) : Closed s t' cs good := by
  apply hcl.evolves ev
  · exact fun _ _ _ he => hs.edge_seeded ev he
  · exact ev.has_eq fun _ _ _ _ he => he.has (by decide) (by decide) (by decide)
  · exact Table.rootOf_evolves ev (fun _ _ _ _ he => he.owner)
      (fun _ _ _ _ he => he.has (by decide) (by decide) (by decide))

variable (hnone : ∀ h o, t.get? h = some o → t.isPermanent h = false → o.isUnreachable = false)

include ev hnone in
/-- A collectable object of the seeded table, and what it was. -/
theorem seeded_back {h : Handle} {o' : Object} (ho' : t'.get? h = some o')
    (hp : t.isPermanent h = false) :
    ∃ o, t.get? h = some o ∧ o.isUnreachable = false ∧ o' = o.seeded keep := by
  obtain ⟨o, hget, he⟩ := ev.back ho'
  exact ⟨o, hget, hnone h o hget hp, he.collectable hp⟩

include hs ev hnone in
theorem linked_seeded {h g : Handle} {k : Strength} (he : Edge s t' h k g)
    (hheed : t'.isPermanent h = false ∨ k = .weak ∧ t'.Awake h) :
    (∃ o, t'.get? g = some o) ∧ (t'.isPermanent g = true → t'.Awake g) := by
  rw [ev.isPermanent] at hheed
  rw [ev.isPermanent]
  have he' := hs.edge_seeded ev he
  have hsource := he'
  obtain ⟨o, a, hget, -⟩ := hsource
  have hawake : t.Awake h ∧ (k = .weak ∨ t.isPermanent h = false) := by
    cases hp : t.isPermanent h with
    | false => exact ⟨⟨o, hget, hnone h o hget hp⟩, .inr rfl⟩
    | true =>
      rw [hp] at hheed
      obtain ⟨hk, o', ho', hu⟩ := hheed.resolve_left (by decide)
      have hsame := (ev.of_some hget ho').permanent hp
      exact ⟨⟨o, hget, hsame ▸ hu⟩, .inl hk⟩
  have hg := hs.linked h k g he' hawake.1 hawake.2
  obtain ⟨q, hq, hu⟩ := hg
  obtain ⟨q', hq', -⟩ := ev.kept g q hq
  exact ⟨⟨q', hq'⟩, fun hp => awake_permanent_seeded ev hp ⟨q, hq, hu⟩⟩

include ev hnone in
/-- Nobody has been reached in a cluster yet. -/
theorem inCluster_of_seeded {h : Handle} {o' : Object} (hp : t.isPermanent h = false)
    (ho' : t'.get? h = some o') : o'.has .reachableInCluster = false := by
  obtain ⟨o, -, -, he⟩ := seeded_back ev hnone ho' hp
  rw [he, Object.inCluster_seeded]

include ev hnone in
/-- After seeding, nothing but the seeds has been claimed. -/
theorem mem_seeds_of_marked (hseeds : ∀ h, h ∈ seeds ↔ t.isPermanent h = false ∧
    ∃ o, t.get? h = some o ∧ o.isSeed keep = true) {h : Handle} (hp : t.isPermanent h = false)
    (hm : t'.Marked h) : h ∈ seeds := by
  rcases hm with hm | ⟨o', ho', hn, hu'⟩ | ⟨o', ho', -, hr⟩
  · rw [ev.isPermanent, hp] at hm
    cases hm
  · obtain ⟨o, hget, hu, he⟩ := seeded_back ev hnone ho' hp
    rw [he, o.owner_seeded] at hn
    rw [he, Object.isUnreachable_seeded hu, hn] at hu'
    exact (hseeds h).mpr ⟨hp, o, hget, by simpa using hu'⟩
  · rw [inCluster_of_seeded ev hnone hp ho'] at hr
    cases hr

include hs ev hnone in
/-- After seeding, the seeds wait to be looked at and nothing else has been claimed. -/
theorem tracing (hcl : Closed s t cs good) (keeping : Bool) (weak : Site → Prop)
    (hseeds : ∀ h, h ∈ seeds ↔ t.isPermanent h = false ∧
      ∃ o, t.get? h = some o ∧ o.isSeed keep = true)
    (hgood : ∀ h ∈ seeds, good h) : Tracing s cs keeping good (· ∈ seeds) weak t' := by
  refine ⟨hs.orderly_seeded ev, hs.closed_seeded ev hcl, fun h k g he => hs.linked_seeded ev hnone he,
    ?_, ?_, ?_, ?_, ?_⟩
  · intro c hc hp
    rw [ev.isPermanent] at hp
    exact awake_permanent_seeded ev hp (hs.roots c hc)
  · intro h hm
    obtain ⟨hp, o, hget, hseed⟩ := (hseeds h).mp hm
    obtain ⟨o', ho', he⟩ := ev.kept h o hget
    refine ⟨(ev.isPermanent h).trans hp, hgood h hm, o', ho', fun _ => ?_⟩
    rw [he.collectable hp, Object.isUnreachable_seeded (hnone h o hget hp), hseed]
    rfl
  · intro h hp hf
    rw [ev.isPermanent] at hp
    exact .inl (mem_seeds_of_marked ev hnone hseeds hp hf.marked)
  · intro h hp hm
    rw [ev.isPermanent] at hp
    exact hgood h (mem_seeds_of_marked ev hnone hseeds hp hm)
  · intro _ h o' r hp ho' _ hr
    rw [ev.isPermanent] at hp
    rw [inCluster_of_seeded ev hnone hp ho'] at hr
    cases hr

end Settled

/-- Seeding is a step of the mark. -/
theorem seeded_outlasts (ev : t.Evolves (t.SeededAs keep) t') : t.Outlasts s t' := by
  apply Table.Evolves.mono ev
  intro h o o' _ he
  refine ⟨⟨he.thins, fun f h1 h2 h3 _ => he.has h1 h2 h3⟩, fun hp => he.permanent hp⟩

/-- The phases of a mark that comes back. -/
theorem mark_ok {plan : MarkPlan} {pool : ScratchPool} {r : MarkResult}
    (hok : mark s plan t cs pool = .ok r) :
    ∃ seeds considered t₀, seed plan.keep t = .ok (seeds, considered, t₀) ∧
      markRounds s plan (cs.size + 1) seeds ⟨t₀, cs, pool.acquire, #[], considered, 0, 0, 0,
        plan.waves.workers.isSome⟩ = .ok r ∧
      r.pool.inUse = 0 := by
  unfold mark at hok
  obtain ⟨⟨seeds, considered, t₀⟩, hseed, hok⟩ := except_bind_ok hok
  obtain ⟨r', hrounds, hok⟩ := except_bind_ok hok
  dsimp only at hrounds hok
  split at hok
  · cases hok
  · rename_i hbalanced
    cases hok
    exact ⟨seeds, considered, t₀, hseed, hrounds,
      by simpa [ScratchPool.isBalanced] using hbalanced⟩

/-- A mark of a settled heap ends with nothing left to do. What was claimed lies in every closed set
that holds the seeds, and the seeds were claimed. -/
theorem mark_spec {plan : MarkPlan} (hleast : 0 < plan.waves.least) (hs : Settled s t cs)
    (hcl : Closed s t cs good) (hgood : ∀ h o, t.get? h = some o → t.isPermanent h = false →
      o.isUnreachable = false → o.isSeed (plan.keep.union Flags.keep) = true → good h)
    (pool : ScratchPool) :
    Yields (mark s plan t cs pool) fun r =>
      Rested s plan.memberKeepsCluster good r ∧ t.Outlasts s r.table ∧
      (∀ h o, t.get? h = some o → t.isPermanent h = false → o.isUnreachable = false) ∧
      (∀ h o, t.get? h = some o → t.isPermanent h = false →
        o.isSeed (plan.keep.union Flags.keep) = true → r.table.Marked h) ∧
      (plan.memberKeepsCluster = true ∨ cs.list = [] → r.clusters = cs) := by
  unfold mark
  apply (seed_spec hs.orderly.tidy hs.orderly.unkilled).bind
  intro found _ hfound
  obtain ⟨seeds, considered, t'⟩ := found
  obtain ⟨ev, hnone, hseeds⟩ := hfound
  have hp : Tracing s cs plan.memberKeepsCluster good (· ∈ seeds) (· ∈ (#[] : Array Site)) t' := by
    apply hs.tracing ev hnone hcl _ _ hseeds
    intro h hm
    obtain ⟨hp, o, hget, hseed⟩ := (hseeds h).mp hm
    exact hgood h o hget hp (hnone h o hget hp) hseed
  apply (markRounds_spec hleast (cs.size + 1) seeds
    ⟨t', cs, pool.acquire, #[], considered, 0, 0, 0, plan.waves.workers.isSome⟩ hp).bind
  intro r _ hr
  obtain ⟨hrested, hout, -, hfrontier, hsame⟩ := hr
  dsimp only
  split
  · exact id
  · refine ⟨hrested, (seeded_outlasts ev).trans hout, hnone, ?_, hsame⟩
    intro h o hget hp hseed
    exact hfrontier h ((hseeds h).mpr ⟨hp, o, hget, hseed⟩)

end

end TracingHeap

import TracingHeap.Proofs.Collection.Agreement
import TracingHeap.Proofs.Mark.Replay

namespace TracingHeap

theorem Flags.intersects_mono {a b m : Flags}
    (h : ∀ i, i < 32 → a.bits.getLsbD i = true → b.bits.getLsbD i = true)
    (ha : a.intersects m = true) : b.intersects m = true := by
  unfold intersects at ha ⊢
  rw [bne_iff_ne] at ha ⊢
  intro hb
  refine ha (BitVec.eq_of_getLsbD_eq fun i hi => ?_)
  have hbit := congrArg (·.getLsbD i) hb
  simp only [BitVec.getLsbD_and, BitVec.getLsbD_zero] at hbit ⊢
  cases hai : a.bits.getLsbD i with
  | false => rfl
  | true =>
    rw [h i hi hai] at hbit
    exact hbit

theorem Flags.cases_of_findings {i : Nat} (hf : findings.bits.getLsbD i = true) :
    i = Flag.unreachable.bit ∨ i = Flag.reachableInCluster.bit ∨ i = Flag.noStrongReference.bit ∨
      i = Flag.clusterRoot.bit := by
  have hsplit : (marks.bits.getLsbD i || (single .clusterRoot).bits.getLsbD i) = true := by
    rw [← hf]
    simp [findings, union]
  rcases Bool.or_eq_true_iff.mp hsplit with hm | hr
  · have hcases := cases_of_marks hm
    omega
  · simp only [single, BitVec.getLsbD_twoPow, Bool.and_eq_true, decide_eq_true_eq] at hr
    omega

namespace Object

variable {keep : Flags} {o o' : Object}

theorem has_eq_of_findings (hrest : o'.flags.remove .findings = o.flags.remove .findings)
    {f : Flag} (hf : Flags.findings.has f = false) : o'.has f = o.has f := by
  have hbit := congrArg (Flags.has · f) hrest
  simpa [has, hf] using hbit

/-- A seed that a mark has left its flags, those aside that tell what was found, is a seed again. -/
theorem isSeed_again (hrest : o'.flags.remove .findings = o.flags.remove .findings)
    (hu : o.isUnreachable = false) (hn : o.has .noStrongReference = false)
    (hroot : o.has .clusterRoot = true → o'.has .clusterRoot = true)
    (hs : o.isSeed keep = true) : o'.isSeed keep = true := by
  have hsame : ∀ f : Flag, Flags.findings.has f = false → o'.has f = o.has f :=
    fun f => has_eq_of_findings hrest
  have hbits : ∀ i, i < 32 → (o.clear .reachableInCluster).flags.bits.getLsbD i = true →
      (o'.clear .reachableInCluster).flags.bits.getLsbD i = true := by
    intro i hi hbit
    have hcleared : ∀ p : Object, (p.clear .reachableInCluster).flags.bits.getLsbD i =
        (p.flags.bits.getLsbD i && !(Flags.single .reachableInCluster).bits.getLsbD i) := fun p =>
      Flags.getLsbD_remove hi p.flags _
    rw [hcleared, Bool.and_eq_true] at hbit ⊢
    obtain ⟨hbit, hnot⟩ := hbit
    refine ⟨?_, hnot⟩
    cases hf : Flags.findings.bits.getLsbD i with
    | false =>
      have heq : (o'.flags.remove .findings).bits.getLsbD i =
          (o.flags.remove .findings).bits.getLsbD i := by rw [hrest]
      rw [Flags.getLsbD_remove hi, Flags.getLsbD_remove hi, hf] at heq
      simpa [hbit] using heq
    | true =>
      rcases Flags.cases_of_findings hf with rfl | rfl | rfl | rfl
      · exact absurd (hbit.symm.trans hu) (by simp)
      · simp [Flags.single, Flag.bit] at hnot
      · exact absurd (hbit.symm.trans hn) (by simp)
      · exact hroot hbit
  unfold isSeed isKept at hs ⊢
  rw [hsame .rootSet (by decide)]
  rw [Bool.or_eq_true, Bool.and_eq_true] at hs ⊢
  rcases hs with hroots | ⟨hkeep, hkill⟩
  · exact .inl hroots
  · refine .inr ⟨Flags.intersects_mono hbits hkeep, ?_⟩
    have hkills : ∀ p : Object, (p.clear .reachableInCluster).flags.has .pendingKill =
        p.has .pendingKill := fun p => by simp [Object.clear, has]
    rw [hkills] at hkill ⊢
    rw [hsame .pendingKill (by decide)]
    exact hkill

theorem remove_marks_seeded (keep : Flags) (o : Object) :
    (o.seeded keep).flags.remove .marks = o.flags.remove .marks := by
  unfold seeded
  dsimp only
  split
  · exact o.remove_marks_clear (by decide)
  · rw [remove_marks_set (by decide), remove_marks_set (by decide), o.remove_marks_clear (by decide)]

end Object

namespace Collector

structure Surveyed (d : Collector) (keep : Flags) (seeds : List Handle) (t₀ : Table) (cs : Clusters)
    (t₁ : Table) (tally : Tally) : Prop extends d.Planted keep seeds t₀ where
  sound : d.Sound
  same : d.clusters.Alike cs
  flooded : Tracer.Flooded ⟨d.schema, cs, d.settings.memberKeepsCluster⟩ (fun _ => True)
    ((⟨d.schema, cs, d.settings.memberKeepsCluster⟩ : Tracer).scope t₀ (fun _ => True) (· ∈ seeds))
    seeds t₀ .empty t₁ tally

/-- The heap was searched, and `d` is what the purge has left of it. -/
structure Collected (b : Collector) (keep : Flags) (seeds : List Handle) (t₀ : Table) (r : Stand)
    (roots : List Handle) (u : Table) (ks : Clusters) (cleared : Nat) (v : Table) (d : Collector) :
    Prop extends b.Search keep seeds t₀ r roots u ks cleared v where
  marked : MarksRounds b.schema b.settings.memberKeepsCluster seeds ⟨t₀, b.clusters, .empty, 0⟩ r
  paired : b.table.Paired
  enrolled : Enrolled b.table b.clusters
  spares : v.Spares d.table
  kept : d.clusters = ks
  schema : d.schema = b.schema
  settings : d.settings = b.settings
  idle : d.Idle

namespace Collected

variable {b d : Collector} {keep : Flags} {seeds roots : List Handle} {t₀ u v : Table} {r : Stand}
  {ks : Clusters} {cleared : Nat} {g h : Handle} {o : Object}
  (a : b.Collected keep seeds t₀ r roots u ks cleared v d)
include a

theorem none_flagged (ho : d.table.get? h = some o) (hp : d.table.isPermanent h = false) :
    o.isUnreachable = false :=
  (a.idle.standing.idle a.idle.idle).2 h o ho hp

theorem isPermanent (h : Handle) : d.table.isPermanent h = u.isPermanent h :=
  (a.spares.isPermanent h).trans (a.nulls.drops.isPermanent h)

theorem awake (ha : u.Awake h) : d.table.Awake h := a.spares.awake (a.nulls.drops.awake ha)

theorem awake_back (ha : d.table.Awake h) : u.Awake h :=
  a.nulls.drops.awake_back (a.spares.awake_back ha)

/-- An object that was not flagged has the flags and the owner that it had. -/
theorem get?_awake (ho : u.get? h = some o) (hu : o.isUnreachable = false) :
    ∃ o', d.table.get? h = some o' ∧ o'.flags = o.flags ∧ o'.owner = o.owner := by
  obtain ⟨o', ho', -, hown, hflags⟩ := a.nulls.drops.kept h o ho
  have hu' : o'.isUnreachable = false := by
    rw [Object.isUnreachable, Object.has, hflags]
    exact hu
  exact ⟨o', a.spares.same h o' ho' hu', hflags, hown⟩

/-- A reference between objects that were not flagged is still there. -/
theorem edge {k : Strength} (he : Edge b.schema u h k g) (hh : u.Awake h) (hg : u.Awake g) :
    Edge b.schema d.table h k g := by
  have ho := a.judged.tracing.orderly
  obtain ⟨o, x, ho', hrep, hslot⟩ := he.stays ho.regular ho.fits a.nulls.drops
    (fun _ _ _ hr => hr.1) (by simp [hg.isUnreachable])
  exact ⟨o, x, (a.spares.get?_eq (a.nulls.drops.awake hh)).trans ho', hrep, hslot⟩

/-- A seed of the first search is one of the second. -/
theorem seed_again (hs : h ∈ seeds) : d.table.isPermanent h = false ∧
    ∃ o, d.table.get? h = some o ∧ o.isSeed (keep.union Flags.keep) = true := by
  obtain ⟨hp, o, ho, hseed⟩ := (a.chosen h).mp hs
  have hretains := a.rounded.retains.trans a.retains
  have hp₀ : t₀.isPermanent h = false := (a.sown.isPermanent h).trans hp
  have hpu : u.isPermanent h = false := (hretains.isPermanent h).trans hp₀
  obtain ⟨q, hq, hu⟩ := a.judged.awake_of_marked hpu (a.retains.marked h (a.rounded.marked h hs))
  obtain ⟨q', hq', hflags, -⟩ := a.get?_awake hq hu
  refine ⟨(a.isPermanent h).trans hpu, q', hq', ?_⟩
  obtain ⟨p, hget, hsown⟩ := a.sown.kept h o ho
  have hrest : q'.flags.remove .findings = o.flags.remove .findings := by
    rw [hflags, hretains.rest h p q hget hq, hsown.collectable hp]
    exact Flags.remove_findings (o.remove_marks_seeded _)
  have hfresh := a.fresh h o ho hp
  refine Object.isSeed_again hrest hfresh ?_ (fun hroot => ?_) hseed
  · cases hn : o.has .noStrongReference with
    | false => rfl
    | true => exact (a.paired h o ho hn).symm.trans hfresh
  · obtain ⟨c, hc, rfl⟩ := a.enrolled.registered h o ho hroot
    obtain ⟨e, he, hce⟩ := hretains.clusters c hc hp₀ (a.tracing.free_of_queued hc hs)
    obtain ⟨p', hp', hflag, -⟩ := a.judged.tracing.orderly.enrolled.root e he
    rw [hce.root, hq] at hp'
    cases hp'
    rw [Object.has, hflags]
    exact hflag

section

variable {seeds' : List Handle} {s₀ s₁ : Table} {cs : Clusters} {tally : Tally}
  (f : d.Surveyed keep seeds' s₀ cs s₁ tally)
include f

theorem isPermanent_again (h : Handle) : s₁.isPermanent h = u.isPermanent h :=
  (f.flooded.advances.isPermanent h).trans ((f.sown.isPermanent h).trans (a.isPermanent h))

/-- An object that stands alone stands alone when the second trace begins. -/
theorem lone_again (hf : u.Free h) (hl : u.Lone h) : s₀.Lone h := by
  obtain ⟨o, ho, hn, hroot⟩ := hl
  obtain ⟨o₁, ho₁, hflags, hown⟩ := a.get?_awake ho (hf.awake.of_get? ho)
  obtain ⟨o₂, ho₂, hsown⟩ := f.sown.kept h o₁ ho₁
  refine ⟨o₂, ho₂, hsown.owner.trans (hown.trans hn), ?_⟩
  rw [hsown.has (by decide) (by decide) (by decide), Object.has, hflags]
  exact hroot

theorem pendingKill_again (hg : u.Awake g) : s₀.has g .pendingKill = u.has g .pendingKill := by
  obtain ⟨q, hq, hu⟩ := hg
  obtain ⟨q₁, hq₁, hflags, -⟩ := a.get?_awake hq hu
  rw [f.toPlanted.has (by decide) (by decide) (by decide), Table.has_of_get? hq₁,
    Table.has_of_get? hq]
  exact congrArg (Flags.has · .pendingKill) hflags

/-- A reference between objects that were not flagged is there when the second trace begins. -/
theorem edge_again {k : Strength} (he : Edge d.schema u h k g) (hh : u.Awake h) (hg : u.Awake g) :
    Edge d.schema s₀ h k g := by
  have ho := f.sound.settled.orderly
  have hedge : Edge d.schema d.table h k g := by
    rw [a.schema] at he ⊢
    exact a.edge he hh hg
  have hthin : ∀ x q q', d.table.SeededAs (keep.union Flags.keep) x q q' →
      q.Thins d.schema (fun _ => False) q' := fun _ _ _ hs => hs.thins
  exact hedge.stays ho.regular ho.fits f.sown hthin id

/-- The objects that the second trace claims are closed under the ways that the first mark took. -/
theorem heeds : Heeds d.schema d.settings.memberKeepsCluster u ks s₁.Marked := by
  have p := f.tracing.alike f.same
  have hperm : ∀ h, s₀.isPermanent h = u.isPermanent h := fun h =>
    (f.sown.isPermanent h).trans (a.isPermanent h)
  have hfront : ∀ {h}, s₁.Marked h → u.isPermanent h = false →
      Hits ⟨d.schema, cs, d.settings.memberKeepsCluster⟩ s₀ (fun _ => True)
        (fun h => s₀.isPermanent h = false ∧ s₁.Marked h) h :=
    fun hm hp => .front ⟨(hperm _).trans hp, hm⟩
  have hmarked : ∀ {h}, Hits ⟨d.schema, cs, d.settings.memberKeepsCluster⟩ s₀ (fun _ => True)
      (fun h => s₀.isPermanent h = false ∧ s₁.Marked h) h → s₁.Marked h :=
    fun hh => Tracer.marked_of_hits p f.flooded.tracing f.flooded.advances (fun _ hf => hf)
      (fun _ hg => hg.elim) hh
  have hclusters : ∀ c ∈ ks.list, ∃ e ∈ cs.list, c.Alike e := fun c hc =>
    f.same.forth c (a.kept ▸ hc)
  refine ⟨fun h g hm hp hfree hlone he hg hpg hk => ?_, fun hkeep c hc hp h hh hm => ?_,
    fun c hc hp hm g hg hpg => ?_, fun c hc hp hm r hr hpr => ?_⟩
  · have hawake := a.judged.awake_of_marked hpg hg
    exact hmarked (.edge (hfront hm hp) trivial (a.lone_again f hfree hlone)
      (a.edge_again f he hfree.awake hawake) ((hperm g).trans hpg)
      ((a.pendingKill_again f hawake).trans hk))
  · obtain ⟨e, he, hce⟩ := hclusters c hc
    obtain ⟨o, ho, hn, -⟩ := p.orderly.enrolled.member e he h (hce.members ▸ hh)
    have hpm := (a.judged.tracing.orderly.enrolled.pooled c hc h hh).trans hp
    rw [← hce.root]
    exact hmarked (.keeper hkeep (hfront hm hpm) ho hn)
  · obtain ⟨e, he, hce⟩ := hclusters c hc
    exact hmarked (.mutables he (hce.root ▸ hfront hm hp) (hce.mem_mutables.mpr hg)
      ((hperm g).trans hpg))
  · obtain ⟨e, he, hce⟩ := hclusters c hc
    exact hmarked (.referenced he (hce.root ▸ hfront hm hp) (hce.mem_referenced.mpr hr)
      ((hperm r).trans hpr))

/-- What the first mark has claimed in the end, the second trace claims. -/
theorem marked_again (hm : u.Marked h) : s₁.Marked h := by
  have hq : Heeds b.schema b.settings.memberKeepsCluster u ks s₁.Marked := by
    rw [← a.schema, ← a.settings]
    exact a.heeds f
  have hseeds : ∀ g ∈ seeds, s₁.Marked g := fun g hg =>
    f.flooded.marked g ((f.chosen g).mpr (a.seed_again hg))
  have hretains := a.rounded.retains.trans a.retains
  have hstart : ∀ g, t₀.Marked g → s₁.Marked g := fun g hg => by
    cases hp : t₀.isPermanent g with
    | true =>
      refine .inl ((a.isPermanent_again f g).trans ?_)
      rw [hretains.isPermanent, hp]
    | false =>
      have hp' := (a.sown.isPermanent g).symm.trans hp
      exact hseeds g (Settled.mem_seeds_of_marked a.sown a.fresh a.chosen hp' hg)
  exact a.marked.marked_within hq a.retains a.tracing hstart hseeds
    (a.scattered.marked_back a.dead a.rounded.tracing hm)

/-- The second trace flags nothing that is there. -/
theorem awake_again (hp : d.table.isPermanent h = false) (ho : d.table.get? h = some o) :
    s₁.Awake h := by
  have hp' : u.isPermanent h = false := (a.isPermanent h).symm.trans hp
  have p := f.flooded.tracing
  have hfree : ∀ {g q}, s₁.isPermanent g = false → s₁.get? g = some q → q.owner = none →
      u.Free g → s₁.Awake g :=
    fun hp hq hn hf => ((a.marked_again f hf.marked).free hp hq hn).awake
  have hpa := (a.isPermanent_again f h).trans hp'
  have hawake := a.awake_back ⟨o, ho, a.none_flagged ho hp⟩
  rcases a.judged.cases_of_awake hawake with ⟨-, hf⟩ | ⟨c, hc, hm⟩
  · obtain ⟨q, hq, hn, hu⟩ := id hf
    obtain ⟨o₁, ho₁, -, hown⟩ := a.get?_awake hq hu
    obtain ⟨o₂, ho₂, hsown⟩ := f.sown.kept h o₁ ho₁
    obtain ⟨o₃, ho₃, hadv⟩ := f.flooded.advances.kept ho₂
    exact hfree hpa ho₃ (hadv.owner.trans (hsown.owner.trans (hown.trans hn))) hf
  · obtain ⟨e, he, hce⟩ := f.same.forth c (a.kept ▸ hc)
    rcases Cluster.mem_objects.mp hm with rfl | hm
    · obtain ⟨q, hq, -, hn⟩ := p.orderly.enrolled.root e he
      rw [hce.root] at hq
      exact hfree hpa hq hn (a.judged.free_root hc)
    · obtain ⟨q, hq, -, hu⟩ := p.orderly.enrolled.member e he h (hce.members ▸ hm)
      exact ⟨q, hq, hu⟩

end

end Collected

end Collector

end TracingHeap

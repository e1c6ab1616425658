import TracingHeap.Proofs.Trace.Lockstep
import TracingHeap.Proofs.Mark.WorkLeft
import TracingHeap.Proofs.Collection.Repetition

namespace TracingHeap

theorem Enrolled.kind_of_mem {t : Table} {cs : Clusters} {c : Cluster} {h : Handle}
    (he : Enrolled t cs) (hc : c ∈ cs.list) (hm : h ∈ c.objects) :
    t.kind h = some (if h = c.root then (none, true) else (some c.root, false)) := by
  rcases Cluster.mem_objects.mp hm with rfl | hm
  · obtain ⟨o, ho, hroot, hn⟩ := he.root c hc
    rw [Table.kind_of_get? ho, hroot, hn, if_pos rfl]
  · obtain ⟨o, ho, hn, -⟩ := he.member c hc h hm
    have hne : h ≠ c.root := fun heq => he.root_not_member hc hc (heq ▸ hm)
    rw [Table.kind_of_get? ho, he.not_root_of_owner ho hn, hn, if_neg hne]

/-- A mark forms no cluster. The induction is on its turns. -/
theorem MarksRounds.root_back {s : Schema} {keeping : Bool} {good : Handle → Prop}
    {frontier : List Handle} {st r : Stand} (run : MarksRounds s keeping frontier st r)
    (p : Tracing s st.clusters keeping good (· ∈ frontier) (· ∈ st.tally.weak) st.table) :
    ∀ d ∈ r.clusters.list, ∃ c ∈ st.clusters.list, c.root = d.root := by
  have hturn : ∀ {frontier roots survivors : List Handle} {t t₁ t₂ : Table} {cs cs₁ cs₂ : Clusters}
      {tally tally₁ : Tally}, cs.Alike cs₁ →
      Turned s keeping good frontier t cs tally t₁ cs₁ tally₁ roots survivors t₂ cs₂ →
        ∀ d ∈ cs₂.list, ∃ c ∈ cs.list, c.root = d.root := by
    intro frontier roots survivors t t₁ t₂ cs cs₁ cs₂ tally tally₁ same b d hd
    obtain ⟨e, he, hed⟩ := b.scattered.clusters d hd
    obtain ⟨c, hc, hce⟩ := same.back e he
    exact ⟨c, hc, hce.root.symm.trans hed.root.symm⟩
  induction run with
  | last same floods order scatters => exact hturn same (.intro p same floods order scatters)
  | next same floods order scatters some others ih =>
    intro d hd
    have b := Turned.intro p same floods order scatters
    obtain ⟨e, he, hed⟩ := ih b.scattered.tracing d hd
    obtain ⟨c, hc, hce⟩ := hturn same b e he
    exact ⟨c, hc, hce.trans hed⟩

namespace Collector.Planted

variable {c : Collector} {keep : Flags} {seeds : List Handle} {t₀ : Table} {g h : Handle}
  (a : c.Planted keep seeds t₀)
include a

theorem kind (h : Handle) : t₀.kind h = c.table.kind h := by
  cases ho : c.table.get? h with
  | none =>
    unfold Table.kind
    rw [ho, a.sown.gone h ho]
  | some o =>
    obtain ⟨o', ho', hs⟩ := a.sown.kept h o ho
    rw [Table.kind_of_get? ho, Table.kind_of_get? ho', hs.owner,
      hs.has (by decide) (by decide) (by decide)]

/-- Seeding leaves the slots alone, and does not touch permanent objects. -/
theorem aims {x : Site} : t₀.Aims x g ↔ c.table.Aims x g := by
  have hslot : t₀.slotAt? x = c.table.slotAt? x := by
    obtain ⟨h, y⟩ := x
    cases ho : c.table.get? h with
    | none => simp [Table.slotAt?, ho, a.sown.gone h ho]
    | some o =>
      obtain ⟨o', ho', hs⟩ := a.sown.kept h o ho
      rw [Table.slotAt?_eq ho, Table.slotAt?_eq ho', Object.slot?, Object.slot?, hs.cells]
  rw [Table.Aims, Table.Aims, hslot, a.sown.isPermanent]
  refine and_congr_right fun _ => and_congr_right fun _ => ?_
  constructor
  · rintro ⟨o', ho', hk⟩
    obtain ⟨o, ho, hs⟩ := a.sown.back ho'
    exact ⟨o, ho, (hs.has (by decide) (by decide) (by decide)).symm.trans hk⟩
  · rintro ⟨o, ho, hk⟩
    obtain ⟨o', ho', hs⟩ := a.sown.kept g o ho
    exact ⟨o', ho', (hs.has (by decide) (by decide) (by decide)).trans hk⟩

/-- A seeded heap shows a trace what the heap does. -/
theorem shows (hs : Settled c.schema c.table c.clusters) (hord : c.schema.Ordered) :
    t₀.Shows c.schema c.table c.clusters := by
  have hlayered := hs.orderly.regular.toLayered
  refine ⟨a.tracing.orderly.tidy, a.sown.isPermanent, fun h _ => a.kind h,
    fun h o _ ho => a.tracing.orderly.fits h o ho, fun h p o _ hp ho => ?_,
    fun h p y _ _ _ g => a.aims, fun e he hpe r hr hp => ?_⟩
  · have hthin : p.Thins c.schema (fun _ => False) o := (a.sown.of_some hp ho).thins
    exact ⟨hthin.classId,
      hord.listed_eq hlayered (hs.orderly.fits h p hp) hthin.toSame hthin.emptied⟩
  · obtain ⟨f, hf, rfl⟩ := (hs.orderly.tracked e he hpe).referenced r hr
    exact (a.tracing.pool f hf ((a.sown.isPermanent f.root).trans hp)).isUnreachable

/-- Seeding flags what is neither a seed nor a member. -/
theorem isUnreachable (hh : c.table.Collectable h) :
    t₀.isUnreachable h = true ↔ h ∉ seeds ∧ ∃ root, c.table.kind h = some (none, root) := by
  obtain ⟨⟨o, ho⟩, hp⟩ := hh
  obtain ⟨o', ho', hs⟩ := a.sown.kept h o ho
  rw [Table.isUnreachable_of_get? ho', hs.collectable hp, Object.isUnreachable_seeded
    (a.fresh h o ho hp), a.chosen, Table.kind_of_get? ho]
  simp [hp, ho]

theorem inCluster (hh : c.table.Collectable h) : t₀.has h .reachableInCluster = false := by
  obtain ⟨⟨o, ho⟩, hp⟩ := hh
  obtain ⟨o', ho', hs⟩ := a.sown.kept h o ho
  rw [Table.has_of_get? ho', hs.collectable hp, o.inCluster_seeded]

end Collector.Planted

namespace Collector.Collected

variable {b d : Collector} {keep : Flags} {seeds roots : List Handle} {t₀ u v : Table} {r : Stand}
  {ks : Clusters} {cleared : Nat} {g h : Handle} {c : Cluster} {o q : Object} {x : Site}
  (a : b.Collected keep seeds t₀ r roots u ks cleared v d)
include a

theorem awake_of_collectable (hh : d.table.Collectable h) : v.Awake h := by
  obtain ⟨⟨o, ho⟩, hp⟩ := hh
  exact a.spares.awake_back ⟨o, ho, a.none_flagged ho hp⟩

theorem isPermanent_seeded (h : Handle) : t₀.isPermanent h = d.table.isPermanent h := by
  rw [a.isPermanent, (a.rounded.retains.trans a.retains).isPermanent]

theorem isPermanent_before (h : Handle) : b.table.isPermanent h = d.table.isPermanent h := by
  rw [← a.isPermanent_seeded, a.sown.isPermanent]

/-- An object that is left has lost references only since the heap was seeded. -/
theorem since (hh : d.table.Collectable h) (hq : d.table.get? h = some q) : ∃ o p,
    t₀.get? h = some o ∧ u.get? h = some p ∧
      o.Thins b.schema (fun g => t₀.has g .pendingKill = true) p ∧
      p.Thins b.schema (fun g => u.isUnreachable g = true) q ∧ q.owner = p.owner ∧
      q.flags = p.flags := by
  have hv := (a.spares.get?_eq (a.awake_of_collectable hh)).symm.trans hq
  obtain ⟨p, hp, hthin, hown, hflags⟩ := a.nulls.drops.back hv
  obtain ⟨o, ho, hr, -⟩ := (a.rounded.retains.trans a.retains).outlasts.back hp
  exact ⟨o, p, ho, hp, hr.toThins, hthin, hown, hflags⟩

theorem listed_again (hord : b.schema.Ordered) (hh : d.table.Collectable h)
    (hq : d.table.get? h = some q) (ho : t₀.get? h = some o) :
    b.schema.listed o = b.schema.listed q := by
  obtain ⟨o', p, ho', -, hop, hpq, -⟩ := a.since hh hq
  rw [ho] at ho'
  cases ho'
  have horderly := a.tracing.orderly
  have hlayered := horderly.regular.toLayered
  have hfit := horderly.fits h o ho
  have hfirst := hord.listed_eq hlayered hfit hop.toSame hop.emptied
  exact hfirst.symm.trans (hord.listed_eq hlayered (hop.fits hfit) hpq.toSame hpq.emptied).symm

theorem pendingKill_kept (hg : d.table.Collectable g) (hq : d.table.get? g = some q)
    (ho : t₀.get? g = some o) : o.has .pendingKill = q.has .pendingKill := by
  obtain ⟨o', p, ho', hp, -, -, -, hflags⟩ := a.since hg hq
  rw [ho] at ho'
  cases ho'
  have hsame := (a.rounded.retains.trans a.retains).outlasts.has_pendingKill g
  rw [Table.has_of_get? hp, Table.has_of_get? ho] at hsame
  exact hsame.symm.trans (congrArg (Flags.has · .pendingKill) hflags).symm

/-- A cluster that is left has been there, though it may know of others now. -/
theorem root_back (hc : c ∈ ks.list) : ∃ e ∈ b.clusters.list, e.root = c.root := by
  obtain ⟨d, hd, hdc⟩ := a.scattered.clusters c hc
  obtain ⟨e, he, hed⟩ := a.marked.root_back a.tracing d hd
  exact ⟨e, he, hed.trans hdc.root.symm⟩

/-- An object that is a seed of what is left has been one of what there was. -/
theorem seed_back (hpaired : d.table.Paired) (hh : d.table.Collectable h)
    (hq : d.table.get? h = some q) (hs : q.isSeed (keep.union Flags.keep) = true) : h ∈ seeds := by
  obtain ⟨o, p, ho, hp, -, -, -, hflags⟩ := a.since hh hq
  obtain ⟨o₀, ho₀, hsown⟩ := a.sown.back ho
  have hpb : b.table.isPermanent h = false := (a.isPermanent_before h).trans hh.2
  have hrest : o₀.flags.remove .findings = q.flags.remove .findings := by
    rw [hflags, (a.rounded.retains.trans a.retains).rest h o p ho hp, hsown.collectable hpb]
    exact (Flags.remove_findings (o₀.remove_marks_seeded _)).symm
  have hu := a.none_flagged hq hh.2
  refine (a.chosen h).mpr ⟨hpb, o₀, ho₀, Object.isSeed_again hrest hu ?_ (fun hroot => ?_) hs⟩
  · cases hn : q.has .noStrongReference with
    | false => rfl
    | true => exact (hpaired h q hq hn).symm.trans hu
  · have hroot' : p.has .clusterRoot = true := by rwa [Object.has, ← hflags]
    obtain ⟨c, hc, rfl⟩ := a.judged.tracing.orderly.enrolled.registered h p hp hroot'
    obtain ⟨e, he, hec⟩ := a.root_back hc
    obtain ⟨x, hx, hflag, -⟩ := a.enrolled.root e he
    rw [hec, ho₀] at hx
    cases hx
    exact hflag

/-- The seeds of what is left are those of what there was. -/
theorem mem_seeds_again (hpaired : d.table.Paired) {seeds' : List Handle} {s₀ : Table}
    (f : d.Planted keep seeds' s₀) (h : Handle) : h ∈ seeds' ↔ h ∈ seeds := by
  rw [f.chosen]
  constructor
  · rintro ⟨hp, q, hq, hs⟩
    exact a.seed_back hpaired ⟨⟨q, hq⟩, hp⟩ hq hs
  · exact a.seed_again

/-- The strong references of an object that is left lead where they have led, except to killed objects. -/
theorem aims_again (hord : b.schema.Ordered) {y : Address} (hh : d.table.Collectable h)
    (hq : d.table.get? h = some q) (hfit : b.schema.Fits q) (hrep : b.schema.Reports q y .strong) :
    t₀.Aims ⟨h, y⟩ g ↔ d.table.Aims ⟨h, y⟩ g := by
  obtain ⟨o, p, ho, hp, hop, hpq, -, -⟩ := a.since hh hq
  have horderly := a.tracing.orderly
  have hstart := horderly.fits h o ho
  rw [Table.Aims, Table.Aims, Table.slotAt?_eq ho, Table.slotAt?_eq hq, a.isPermanent_seeded]
  constructor
  · rintro ⟨hslot, hpg, z, hz, hk⟩
    have hkill : ¬ t₀.has g .pendingKill = true := by simp [Table.has_of_get? hz, hk]
    have hslot' := hop.slot_stays hslot hkill
    have hrep' : b.schema.Reports o y .strong :=
      hrep.of_listed horderly.regular.toLayered hfit hstart
        (hpq.classId.trans hop.classId).symm (a.listed_again hord hh hq ho)
    have hedge : Edge b.schema u h .strong g :=
      ⟨p, y, hp, hop.reports_stays horderly.regular hstart hrep' hslot', hslot'⟩
    have hawake := a.judged.strong (a.awake_back ⟨q, hq, a.none_flagged hq hh.2⟩)
      ((a.isPermanent h).symm.trans hh.2) hedge
    obtain ⟨q', hq', -⟩ := a.awake hawake
    refine ⟨hpq.slot_stays hslot' (by simp [hawake.isUnreachable]), hpg, q', hq', ?_⟩
    rw [← a.pendingKill_kept ⟨⟨q', hq'⟩, hpg⟩ hq' hz, hk]
  · rintro ⟨hslot, hpg, q', hq', hk⟩
    obtain ⟨z, -, hz, -⟩ := a.since ⟨⟨q', hq'⟩, hpg⟩ hq'
    refine ⟨hop.slot_back (hpq.slot_back hslot), hpg, z, hz, ?_⟩
    rw [a.pendingKill_kept ⟨⟨q', hq'⟩, hpg⟩ hq' hz, hk]

variable (hkept : ∀ c ∈ b.clusters.list, b.table.isPermanent c.root = false → ∀ h ∈ c.objects,
  v.Awake h → c ∈ ks.list)
include hkept

/-- The cluster of an object that is left is left as it was. -/
theorem cluster_kept (hc : c ∈ b.clusters.list) (hm : h ∈ c.objects)
    (hh : d.table.Collectable h) : c ∈ d.clusters.list := by
  have hp : b.table.isPermanent c.root = false := by
    rw [← a.enrolled.permanent_objects hc hm, a.isPermanent_before]
    exact hh.2
  rw [a.kept]
  exact hkept c hc hp h hm (a.awake_of_collectable hh)

theorem kind_again (hd : Enrolled d.table d.clusters) (hh : d.table.Collectable h) :
    b.table.kind h = d.table.kind h := by
  obtain ⟨⟨q, hq⟩, -⟩ := id hh
  obtain ⟨o, p, ho, hp, -, -, hown, hflags⟩ := a.since hh hq
  obtain ⟨o', ho', hsown⟩ := a.sown.back ho
  cases hr : b.table.rootOf h with
  | some root =>
    obtain ⟨c, hc, -, hm⟩ := a.enrolled.cluster_of_rootOf hr
    rw [a.enrolled.kind_of_mem hc hm, hd.kind_of_mem (a.cluster_kept hkept hc hm hh) hm]
  | none =>
    rw [Table.rootOf_eq ho', Option.or_eq_none_iff] at hr
    have hroot : o'.has .clusterRoot = false := by simpa using hr.2
    have hlone : t₀.Lone h := ⟨o, ho, hsown.owner.trans hr.1,
      (hsown.has (by decide) (by decide) (by decide)).trans hroot⟩
    obtain ⟨p', hp', hn, hflag⟩ := (a.rounded.retains.trans a.retains).lone h hlone
    rw [hp] at hp'
    cases hp'
    have hflag' : q.has .clusterRoot = p.has .clusterRoot :=
      congrArg (Flags.has · .clusterRoot) hflags
    rw [Table.kind_of_get? ho', Table.kind_of_get? hq, hr.1, hroot, hown, hn, hflag', hflag]

/-- A cluster that is left has been there. -/
theorem cluster_back (hd : Enrolled d.table d.clusters) (hc : c ∈ d.clusters.list)
    (hp : d.table.isPermanent c.root = false) : c ∈ b.clusters.list := by
  obtain ⟨o, ho, -⟩ := hd.root c hc
  have hh : d.table.Collectable c.root := ⟨⟨o, ho⟩, hp⟩
  have hkind := a.kind_again hkept hd hh
  rw [hd.kind_of_mem hc (Cluster.mem_objects.mpr (.inl rfl)), if_pos rfl] at hkind
  obtain ⟨p, hp, hpair⟩ := Option.map_eq_some_iff.mp hkind
  obtain ⟨e, he, hroot⟩ := a.enrolled.registered c.root p hp (Prod.mk.inj hpair).2
  have hleft := a.cluster_kept hkept he (Cluster.mem_objects.mpr (.inl hroot.symm)) hh
  rwa [← Clusters.eq_of_root hd.distinct hleft hc hroot]

/-- The heap has shown the first mark what it shows the second, of the objects that are left. -/
theorem shows (hord : b.schema.Ordered) : t₀.Shows b.schema d.table d.clusters := by
  have hd := a.idle.sound.settled
  have hfits := hd.orderly.fits
  rw [a.schema] at hfits
  refine ⟨a.tracing.orderly.tidy, a.isPermanent_seeded, fun h hh => ?_,
    fun h o _ ho => a.tracing.orderly.fits h o ho, fun h q o hh hq ho => ?_,
    fun h q y hh hq hrep g => a.aims_again hord hh hq (hfits h q hq) hrep,
    fun e he hpe x hx hp => ?_⟩
  · exact (a.toPlanted.kind h).trans (a.kind_again hkept hd.orderly.enrolled hh)
  · obtain ⟨o', p, ho', -, hop, hpq, -⟩ := a.since hh hq
    rw [ho] at ho'
    cases ho'
    exact ⟨(hpq.classId.trans hop.classId).symm, a.listed_again hord hh hq ho⟩
  · obtain ⟨f, hf, rfl⟩ := (hd.orderly.tracked e he hpe).referenced x hx
    obtain ⟨p, hp', hu⟩ := a.awake_back (hd.roots f hf)
    obtain ⟨o, ho, -, hsame⟩ := (a.rounded.retains.trans a.retains).outlasts.back hp'
    rw [hsame ((a.isPermanent_seeded _).trans hp)] at hu
    exact (Table.isUnreachable_of_get? ho).trans hu

/-- Seeded again, what is left goes abreast with what there was. -/
theorem abreast (hord : b.schema.Ordered) {s₀ : Table} (f : d.Planted keep seeds s₀) :
    Table.Abreast b.schema d.table d.clusters t₀ s₀ := by
  have hd := a.idle.sound.settled
  have hright := f.shows hd (a.schema ▸ hord)
  rw [a.schema] at hright
  have hkind : ∀ h, d.table.Collectable h → b.table.kind h = d.table.kind h := fun h hh =>
    a.kind_again hkept hd.orderly.enrolled hh
  have hback : ∀ h, d.table.Collectable h → b.table.Collectable h := fun h hh =>
    hh.of_kind (hkind h hh) (a.isPermanent_before h)
  refine ⟨a.shows hkept hord, hright, fun h hh => ?_, fun h hh => ?_⟩
  · rw [Bool.eq_iff_iff, f.isUnreachable hh, a.toPlanted.isUnreachable (hback h hh), hkind h hh]
  · rw [f.inCluster hh, a.toPlanted.inCluster (hback h hh)]

/-- The first trace has had the clusters that the second one may expand. -/
theorem knows {keeping : Bool} :
    (⟨b.schema, b.clusters, keeping⟩ : Tracer).Knows b.schema keeping d.table d.clusters := by
  refine ⟨rfl, rfl, fun c hc hp => Clusters.get?_of_mem a.enrolled.distinct ?_⟩
  exact a.cluster_back hkept a.idle.sound.settled.orderly.enrolled hc hp

end Collector.Collected

end TracingHeap

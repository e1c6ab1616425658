import TracingHeap.Proofs.Purge.Spared
import TracingHeap.Proofs.Collection.WeakClearing

namespace TracingHeap

namespace Table.Spares

variable {s : Schema} {t t' : Table} {cs : Clusters} {g h : Handle} {k : Strength}

theorem edge_back (a : t.Spares t') (hs : s.Regular) (hfit : ∀ h o, t.get? h = some o → s.Fits o)
    (he : Edge s t' h k g) : Edge s t h k g := by
  obtain ⟨o', b, ho', hrep, hslot⟩ := he
  obtain ⟨o, ho, hw⟩ := a.back h o' ho'
  have hthin : o.Thins s (fun _ => False) o' := .of_cells hw.toSame hw.cells
  exact ⟨o, b, ho, hthin.reports_back hs (hfit h o ho) hrep hslot, hthin.slot_back hslot⟩

theorem rootOf_eq (a : t.Spares t') (ha : t.Awake h) : t'.rootOf h = t.rootOf h := by
  rw [Table.rootOf, Table.rootOf, a.get?_eq ha]

/-- A purge leaves a settled heap settled. -/
theorem settled (a : t.Spares t') (hs : Settled s t cs) : Settled s t' cs := by
  have ho := hs.orderly
  have he := ho.enrolled
  have hedge : ∀ h k g, Edge s t' h k g → Edge s t h k g :=
    fun h k g => a.edge_back ho.regular ho.fits
  refine ⟨⟨ho.regular, a.tidy, ?_, ⟨he.distinct, ?_, ?_, ?_, ?_, he.nodup, ?_⟩, ?_, ?_⟩,
    fun c hc => a.awake (hs.roots c hc), ?_, ?_⟩
  · intro h o' ho'
    obtain ⟨o, hget, hw⟩ := a.back h o' ho'
    have hthin : o.Thins s (fun _ => False) o' := .of_cells hw.toSame hw.cells
    exact hthin.fits (ho.fits h o hget)
  · intro c hc
    rw [a.get?_eq (hs.roots c hc)]
    exact he.root c hc
  · intro h o' ho' hf
    obtain ⟨o, hget, hw⟩ := a.back h o' ho'
    rw [hw.flag .clusterRoot (by decide) (by decide)] at hf
    exact he.registered h o hget hf
  · intro c hc m hm
    rw [a.get?_eq (hs.awake_objects hc (Cluster.mem_objects.mpr (.inr hm)))]
    exact he.member c hc m hm
  · intro h o' r ho' hn
    obtain ⟨o, hget, hw⟩ := a.back h o' ho'
    exact he.listed h o r hget (hw.owner ▸ hn)
  · intro c hc m hm
    rw [a.isPermanent, a.isPermanent]
    exact he.pooled c hc m hm
  · intro c hc hp
    rw [a.isPermanent] at hp
    have htr := ho.tracked c hc hp
    refine ⟨htr.referenced, fun m hm => ?_, fun h hh g hedge' hpg hout => ?_⟩
    · obtain ⟨o, hget, -⟩ := a.awake (hs.mutables c hc hp m hm)
      exact ⟨⟨o, hget⟩, (a.isPermanent m).trans (htr.mutables m hm).2⟩
    · rw [a.isPermanent] at hpg
      rcases htr.covered h hh g (hedge h .strong g hedge') hpg hout with hm | ⟨r, hr, hroot⟩
      · exact .inl hm
      · obtain ⟨d, hd, -, hgd⟩ := he.cluster_of_rootOf hroot
        exact .inr ⟨r, hr, (a.rootOf_eq (hs.awake_objects hd hgd)).trans hroot⟩
  · intro h o' ho' hr
    obtain ⟨o, hget, hw⟩ := a.back h o' ho'
    rw [hw.flag .rootSet (by decide) (by decide)] at hr
    rw [hw.flag .pendingKill (by decide) (by decide)]
    exact ho.unkilled h o hget hr
  · intro c hc hp m hm
    rw [a.isPermanent] at hp
    exact a.awake (hs.mutables c hc hp m hm)
  · intro h k g hedge' ha hheed
    rw [a.isPermanent] at hheed
    exact a.awake (hs.linked h k g (hedge h k g hedge') (a.awake_back ha) hheed)

end Table.Spares

/-- What it means to have found the dead of a heap, `good` being a set that is closed and holds the
seeds. -/
structure Condemns (s : Schema) (keeping : Bool) (keep : Flags) (good : Handle → Prop) (t : Table)
    (cs : Clusters) (t' : Table) (cs' : Clusters) : Prop where
  settled : Settled s t' cs'
  isPermanent : ∀ h, t'.isPermanent h = t.isPermanent h
  fresh : ∀ h o, t.get? h = some o → t.isPermanent h = false → o.isUnreachable = false
  live : ∀ h, t'.Awake h → ∃ o, t.get? h = some o
  pooled : ∀ h, t.isPermanent h = true → t.isUnreachable h = true → t'.isUnreachable h = true
  seeds : ∀ h o, t.get? h = some o → t.isPermanent h = false →
    o.isSeed (keep.union Flags.keep) = true → t'.Awake h
  strong : ∀ h g, t'.Awake h → t.isPermanent h = false → Edge s t h .strong g →
    t.has g .pendingKill = false → t'.Awake g
  within : ∀ h, t'.Awake h → t.isPermanent h = false → good h
  company : keeping = true ∨ cs.list = [] → ∀ c ∈ cs.list, t.isPermanent c.root = false →
    ∀ h ∈ c.objects, t'.Awake h → t'.Awake c.root ∧ c ∈ cs'.list
  tenable : ∀ h k g, t'.Awake h → t.isPermanent h = false → t'.rootOf h = none →
    Edge s t' h k g → t.Tenable g

/-- From the verdict and the nulling of weak references to what the heap was before the mark. -/
theorem Judged.condemns {s : Schema} {keeping : Bool} {keep : Flags} {good : Handle → Prop}
    {met : Array Site} {t t₁ t' : Table} {cs cs' : Clusters}
    (j : Judged s keeping good (· ∈ met) t₁ cs') (hs : Settled s t cs) (hout : t.Outlasts s t₁)
    (d : t₁.Drops s t') (hsettled : Settled s t' cs')
    (hfresh : ∀ h o, t.get? h = some o → t.isPermanent h = false → o.isUnreachable = false)
    (hseeds : ∀ h o, t.get? h = some o → t.isPermanent h = false →
      o.isSeed (keep.union Flags.keep) = true → t₁.Marked h)
    (hcompany : keeping = true ∨ cs.list = [] → ∀ c ∈ cs.list, t₁.isPermanent c.root = false →
      ∀ h ∈ c.objects, t₁.Awake h → t₁.Awake c.root ∧ c ∈ cs'.list) :
    Condemns s keeping keep good t cs t' cs' := by
  have hperm : ∀ h, t₁.isPermanent h = t.isPermanent h := Table.Evolves.isPermanent hout
  refine ⟨hsettled, fun h => (d.isPermanent h).trans (hperm h), hfresh, ?_, ?_, ?_, ?_, ?_, ?_, ?_⟩
  · intro h ha
    obtain ⟨o₁, ho₁, -⟩ := d.awake_back ha
    obtain ⟨o, ho, -⟩ := Table.Evolves.back hout ho₁
    exact ⟨o, ho⟩
  · intro h hp hu
    rw [d.isUnreachable]
    cases ho : t.get? h with
    | none => simp [Table.isUnreachable, Table.has, ho] at hu
    | some o =>
      obtain ⟨o₁, ho₁, -, hsame⟩ := Table.Evolves.kept hout h o ho
      rw [Table.isUnreachable_of_get? ho] at hu
      rw [Table.isUnreachable_of_get? ho₁, hsame hp, hu]
  · intro h o ho hp hseed
    exact d.awake (j.awake_of_marked ((hperm h).trans hp) (hseeds h o ho hp hseed))
  · intro h g ha hp he hkill
    have hstay : Edge s t₁ h .strong g := by
      refine he.stays hs.orderly.regular hs.orderly.fits hout (fun _ _ _ hr => hr.1.toThins) ?_
      rw [hkill]
      exact Bool.false_ne_true
    exact d.awake (j.strong (d.awake_back ha) ((hperm h).trans hp) hstay)
  · intro h ha hp
    exact j.within (d.awake_back ha) ((hperm h).trans hp)
  · intro hk c hc hp h hh ha
    obtain ⟨hroot, hin⟩ := hcompany hk c hc ((hperm c.root).trans hp) h hh (d.awake_back ha)
    exact ⟨d.awake hroot, hin⟩
  · intro h k g ha hp hroot he
    have ho₁ := j.tracing.orderly
    rw [d.rootOf] at hroot
    have hten := j.tenable (d.awake_back ha) ((hperm h).trans hp) hroot
      (d.edge_back ho₁.regular ho₁.fits he)
    refine hten.imp (fun hpg => (hperm g).symm.trans hpg) fun hk => ?_
    rwa [hout.has_pendingKill] at hk

namespace Collector

variable {c : Collector} {good : Handle → Prop}

/-- What holds of a collector between two calls. -/
structure Sound (c : Collector) : Prop where
  settled : Settled c.schema c.table c.clusters
  purge : c.purge.Waits c.table

structure Purged (c d : Collector) : Prop where
  spares : c.table.Spares d.table
  schema : d.schema = c.schema
  clusters : d.clusters = c.clusters
  settings : d.settings = c.settings
  sound : d.Sound

theorem runPurge_spec (hc : c.Sound) (deadline : Option Deadline) :
    Ends Fault.Corrupt (c.runPurge deadline) fun found => c.Purged found.2 := by
  obtain ⟨settings, workers, schema, table, clusters, purge, journal, pool, lock, misses, last⟩ := c
  have hrun : Ends Fault.Corrupt (PurgeState.run schema deadline ⟨purge, table, journal⟩)
      fun found => table.Spares found.2.table ∧ found.2.purge.Waits found.2.table :=
    PurgeState.run_spares hc.settled.orderly.tidy hc.purge deadline
  unfold runPurge
  apply hrun.bind
  intro found _ hfound
  obtain ⟨hspares, hwaits⟩ := hfound
  exact ⟨hspares, rfl, rfl, rfl, hspares.settled hc.settled, hwaits⟩

theorem Purged.refl (hc : c.Sound) : c.Purged c :=
  ⟨.refl hc.settled.orderly.tidy, rfl, rfl, rfl, hc⟩

theorem finishPurge_spec (hc : c.Sound) :
    Ends Fault.Corrupt c.finishPurge fun found => c.Purged found.2 := by
  unfold finishPurge
  split
  · apply (runPurge_spec hc none).bind
    intro found _ hfound
    exact hfound
  · exact .refl hc

/-- Checking the clusters tells of a cluster, never of a reference. -/
theorem verifyClusters_spec (c : Collector) :
    Ends Fault.Corrupt c.verifyClusters fun _ => True := by
  have hroots : ∀ (cs : Clusters) (t : Table) (rs : List Handle) (e : HeapError),
      rs.forM (cs.verify t) = .error e → ∃ reason, e = .clusterInvariant reason := by
    intro cs t rs
    induction rs with
    | nil =>
      intro e he
      cases he
    | cons r rest ih =>
      intro e he
      change (cs.verify t r >>= fun _ => rest.forM (cs.verify t)) = .error e at he
      rcases except_bind_error he with he | ⟨_, -, he⟩
      · unfold Clusters.verify at he
        simp only at he
        split at he
        · cases he
          exact ⟨_, rfl⟩
        · split at he
          · cases he
            exact ⟨_, rfl⟩
          · cases he
      · exact ih e he
  unfold verifyClusters Clusters.verifyAll
  split
  · cases hx : (c.clusters.list.map (·.root)).forM (c.clusters.verify c.table) with
    | ok _ => trivial
    | error e =>
      obtain ⟨reason, he⟩ := hroots _ _ _ e hx
      intro hf
      obtain ⟨_, _, _, hf⟩ := hf
      rw [he] at hf
      cases hf
  · trivial

theorem markPlan_least (c : Collector) (keep : Flags) : 0 < (c.markPlan keep).waves.least :=
  Nat.lt_of_lt_of_le Nat.zero_lt_one (Nat.le_max_right _ _)

/-- Finding the dead takes a settled heap to a settled heap. -/
theorem condemn_spec (hc : c.Sound) {keep : Flags}
    (hcl : Closed c.schema c.table c.clusters good)
    (hgood : ∀ h o, c.table.get? h = some o → c.table.isPermanent h = false →
      o.isUnreachable = false → o.isSeed (keep.union Flags.keep) = true → good h) :
    Ends Fault.Corrupt (c.condemn keep) fun found => found.2.Sound ∧
      found.2.schema = c.schema ∧ found.2.settings = c.settings ∧
      Condemns c.schema c.settings.memberKeepsCluster keep good c.table c.clusters
        found.2.table found.2.clusters := by
  have hs := hc.settled
  unfold condemn
  apply (verifyClusters_spec c).bind
  intro _ _ _
  have hmark := mark_spec (c.markPlan_least keep) hs hcl hgood c.pool
  apply (hmark.weaken fun _ => Fault.Corrupt.broken).bind
  intro r _ hr
  obtain ⟨hrested, hout, hfresh, hseeds, hsame⟩ := hr
  have hdissolve := dissolveUnreachable_spec hrested.tracing hrested.outlived
  apply (hdissolve.weaken fun _ => Fault.Corrupt.broken).bind
  intro dissolved _ hd
  obtain ⟨unhashed, t₁, cs'⟩ := dissolved
  obtain ⟨j, hout', hmarked, hcompany⟩ := hd
  have hclear := clearWeak_spec j.tracing.orderly r.weak
  apply (hclear.weaken fun _ => Fault.Corrupt.broken).bind
  intro cleared _ hcleared
  obtain ⟨t', n⟩ := cleared
  obtain ⟨d, hmet, hclustered, hpermanent⟩ := hcleared
  have hsettled := j.settled d hmet hclustered hpermanent
  have hcondemns : Condemns c.schema c.settings.memberKeepsCluster keep good c.table c.clusters
      t' cs' := by
    apply j.condemns hs (hout.trans hout') d hsettled hfresh
    · intro h o ho hp hseed
      exact hmarked h (hseeds h o ho hp hseed)
    · intro hk e he hp h hh ha
      rw [← hsame hk] at he
      rw [Table.Evolves.isPermanent hout'] at hp
      exact hcompany e he hp h hh ha
  refine ⟨⟨hsettled, ⟨fun h hh => ?_, fun h => ?_⟩⟩, rfl, rfl, hcondemns⟩
  · have hu := hc.purge.flagged h hh
    cases hp : c.table.isPermanent h with
    | true => exact hcondemns.pooled h hp hu
    | false =>
      cases ho : c.table.get? h with
      | none => simp [Table.isUnreachable, Table.has, ho] at hu
      | some o =>
        rw [Table.isUnreachable_of_get? ho, hfresh h o ho hp] at hu
        cases hu
  · rcases h with h | h <;> cases h

/-- Finding the dead takes a settled heap to a settled heap, whatever else it keeps. -/
theorem Sound.condemned {d : Collector} (hc : c.Sound) {keep : Flags} {stats : Statistics}
    (hok : c.condemn keep = .ok (stats, d)) :
    d.Sound ∧ d.schema = c.schema ∧ d.settings = c.settings ∧
      Condemns c.schema c.settings.memberKeepsCluster keep (fun _ => True) c.table c.clusters d.table
        d.clusters :=
  (condemn_spec hc .all fun _ _ _ _ _ _ => trivial).ok hok

/-- What a collection does: it finishes the purge that was left, finds the dead, and may carry the
new purge on. The closed set may depend on the heap that the old purge leaves. -/
theorem collect_spec (hc : c.Sound) {keep : Flags} (full : Bool)
    {good : Collector → Handle → Prop}
    (hcl : ∀ b : Collector, c.Purged b → Closed b.schema b.table b.clusters (good b))
    (hgood : ∀ b : Collector, c.Purged b → ∀ h o, b.table.get? h = some o →
      b.table.isPermanent h = false → o.isUnreachable = false →
      o.isSeed (keep.union Flags.keep) = true → good b h) :
    Ends Fault.Corrupt (c.collect keep full) fun found => ∃ b m : Collector, c.Purged b ∧
      Condemns c.schema c.settings.memberKeepsCluster keep (good b) b.table c.clusters m.table
        m.clusters ∧
      m.schema = c.schema ∧ m.Purged found.2 := by
  unfold collect
  have hc' : ({ c with misses := 0 } : Collector).Sound := ⟨hc.settled, hc.purge⟩
  apply (finishPurge_spec hc').bind
  intro finished _ hfinished
  obtain ⟨n, b⟩ := finished
  have hb : c.Purged b := ⟨hfinished.spares, hfinished.schema, hfinished.clusters,
    hfinished.settings, hfinished.sound⟩
  apply (condemn_spec hb.sound (hcl b hb) (hgood b hb)).bind
  intro condemned _ hcondemned
  obtain ⟨stats, m⟩ := condemned
  obtain ⟨hm, hschema, hsettings, hcondemns⟩ := hcondemned
  rw [hb.schema, hb.settings, hb.clusters] at hcondemns
  have hfreed : ∀ freed : Nat × Collector, m.Purged freed.2 → ∀ last : Option Statistics,
      ∃ b m : Collector, c.Purged b ∧
        Condemns c.schema c.settings.memberKeepsCluster keep (good b) b.table c.clusters m.table
          m.clusters ∧
        m.schema = c.schema ∧ m.Purged { freed.2 with last := last } := by
    intro freed hfreed last
    exact ⟨b, m, hb, hcondemns, hschema.trans hb.schema, hfreed.spares, hfreed.schema,
      hfreed.clusters, hfreed.settings, hfreed.sound.settled, hfreed.sound.purge⟩
  dsimp only
  split
  · apply (finishPurge_spec hm).bind
    intro freed _ hfreed'
    exact hfreed freed hfreed' _
  · exact hfreed (0, m) (.refl hm) _

end Collector

end TracingHeap

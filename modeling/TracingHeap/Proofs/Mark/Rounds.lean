import TracingHeap.Proofs.Mark.OutlivedCluster
import TracingHeap.Proofs.Trace.Waves
import TracingHeap.Marking.Analysis

namespace TracingHeap

section

variable {s : Schema} {t : Table} {cs cs' : Clusters} {c : Cluster} {keeping : Bool}
  {good gray : Handle → Prop} {weak : Site → Prop} {h : Handle}

theorem outlived_iff : Clusters.outlived t c = true ↔ t.isUnreachable c.root = true ∧
    ∃ h ∈ c.members, t.has h .reachableInCluster = true := by
  simp [Clusters.outlived]

/-- Dissolving a dead cluster, as a call. -/
theorem Tracing.dissolve_spec (p : Tracing s cs keeping good gray weak t) (hc : c ∈ cs.list)
    (hu : t.isUnreachable c.root = true) (hgray : ∀ h, gray h → t.Free h) :
    Yields (cs.dissolve s t c.root) fun found => found.1 = some c ∧ found.2.1 = c.disband t ∧
      Clusters.Becomes (fun d d' => d.Refreshed s (c.disband t) c.root d') (cs.erase c.root)
        found.2.2 ∧
      Tracing s found.2.2 keeping good
        (fun h => gray h ∨ h ∈ c.members ∧ t.has h .reachableInCluster = true) weak
        (c.disband t) := by
  rcases Clusters.dissolve_cases p.orderly hc with ⟨cs', hok, hb⟩ | ⟨f, hf, hover⟩
  · rw [hok]
    exact ⟨rfl, rfl, hb, p.dissolve hc hu hgray hb⟩
  · rw [hf]
    exact hover.not_broken

/-- The members that survive their cluster are those referenced from outside. -/
theorem mem_alive (ho : Orderly s t cs) (hc : c ∈ cs.list) :
    h ∈ (c.members.filter fun h => (c.disband t).contains h && !(c.disband t).isUnreachable h) ↔
      h ∈ c.members ∧ t.has h .reachableInCluster = true := by
  rw [List.mem_filter]
  refine and_congr_right fun hm => ?_
  obtain ⟨o, hg, -, hu⟩ := ho.enrolled.member c hc h hm
  have hg' := get?_disband_member ho hc hm hg
  rw [Table.contains, hg', Table.isUnreachable_of_get? hg', o.isUnreachable_release hu,
    Table.has_of_get? hg]
  simp

/-- A cluster other than the dissolved one has the root and the members it had, and they are as
they were. -/
theorem outlived_disband (ho : Orderly s t cs) (hc : c ∈ cs.list) {d d' : Cluster}
    (hd : d ∈ cs.list) (hne : d.root ≠ c.root) (hroot : d'.root = d.root)
    (hmem : d'.members = d.members) :
    Clusters.outlived (c.disband t) d' = Clusters.outlived t d := by
  have hsame : ∀ h ∈ d.objects, (c.disband t).get? h = t.get? h := fun h hh =>
    get?_disband_of_not_mem ho hc (objects_disjoint ho.enrolled hc hd hne hh)
  rw [Bool.eq_iff_iff, outlived_iff, outlived_iff, hroot, hmem]
  refine and_congr ?_ (exists_congr fun h => and_congr_right fun hm => ?_)
  · simp only [Table.isUnreachable, Table.has,
      hsame d.root (Cluster.mem_objects.mpr (.inl rfl))]
  · simp only [Table.has, hsame h (Cluster.mem_objects.mpr (.inr hm))]

/-- Where the dissolving of outlived clusters stands, `left` being the roots still to come. -/
structure Breaking (s : Schema) (keeping : Bool) (good : Handle → Prop) (weak : Site → Prop)
    (t₀ : Table) (cs₀ : Clusters) (roots left : List Handle)
    (found : List Handle × Table × Clusters) : Prop where
  tracing : Tracing s found.2.2 keeping good (· ∈ found.1) weak found.2.1
  free : ∀ h ∈ found.1, found.2.1.Free h
  outlasts : t₀.Outlasts s found.2.1
  marked : ∀ h, t₀.Marked h → found.2.1.Marked h
  distinct : left.Nodup
  outlived : ∀ r ∈ left, ∃ c ∈ found.2.2.list, c.root = r ∧ Clusters.outlived found.2.1 c = true
  idle : found.1 = [] → found.2.1 = t₀ ∧ found.2.2 = cs₀ ∧ left = roots

theorem Breaking.step {t₀ : Table} {cs₀ : Clusters} {roots left : List Handle} {r : Handle}
    {found : List Handle × Table × Clusters}
    (b : Breaking s keeping good weak t₀ cs₀ roots (r :: left) found) :
    Yields (Clusters.dissolveInto s found r) (Breaking s keeping good weak t₀ cs₀ roots left) := by
  obtain ⟨survivors, t, cs⟩ := found
  obtain ⟨c, hc, rfl, hout⟩ := b.outlived r (List.mem_cons_self ..)
  obtain ⟨hu, m, hm, hr⟩ := outlived_iff.mp hout
  obtain ⟨hnot, hdist⟩ := List.nodup_cons.mp b.distinct
  have ho := b.tracing.orderly
  unfold Clusters.dissolveInto
  refine (b.tracing.dissolve_spec hc hu b.free).bind ?_
  rintro ⟨c?, t', cs'⟩ _ ⟨hsome, htab, hb, htracing⟩
  dsimp only at hsome htab hb htracing
  subst hsome
  subst htab
  refine ⟨htracing.congr fun x => ?_, fun x hx => ?_,
    b.outlasts.trans (b.tracing.disband_outlasts hc hu),
    fun x hx => marked_disband ho hc hu (b.marked x hx), hdist, fun r' hr' => ?_, fun hnil => ?_⟩
  · rw [List.mem_append, mem_alive ho hc]
  · rcases List.mem_append.mp hx with hx | hx
    · exact free_disband ho hc hu (b.free x hx)
    · obtain ⟨hx, hxr⟩ := (mem_alive ho hc).mp hx
      exact free_released ho hc hx hxr
  · obtain ⟨d, hd, rfl, hdout⟩ := b.outlived r' (List.mem_cons_of_mem _ hr')
    have hne : d.root ≠ c.root := fun he => hnot (he ▸ hr')
    obtain ⟨d', hd', hR, hroot⟩ := hb.forth_erase hd hne
    exact ⟨d', hd', hroot, (outlived_disband ho hc hd hne hroot hR.members).trans hdout⟩
  · have hmem : m ∈ survivors ++
        (c.members.filter fun h => (c.disband t).contains h && !(c.disband t).isUnreachable h) :=
      List.mem_append_right _ ((mem_alive ho hc).mpr ⟨hm, hr⟩)
    dsimp only at hnil
    rw [hnil] at hmem
    cases hmem

/-- Before the dissolving, all outlived clusters are still to come. -/
theorem Breaking.start (p : Tracing s cs keeping good (fun _ => False) weak t) :
    Breaking s keeping good weak t cs ((cs.list.filter (Clusters.outlived t)).map (·.root))
      ((cs.list.filter (Clusters.outlived t)).map (·.root)) ([], t, cs) := by
  refine ⟨p.congr fun x => by simp, fun x hx => (List.not_mem_nil hx).elim, .refl t,
    fun _ h => h, p.orderly.enrolled.distinct.sublist (List.filter_sublist.map _), fun r hr => ?_,
    fun _ => ⟨rfl, rfl, rfl⟩⟩
  obtain ⟨c, hc, rfl⟩ := List.mem_map.mp hr
  obtain ⟨hc, hout⟩ := List.mem_filter.mp hc
  exact ⟨c, hc, rfl, hout⟩

/-- Dissolving the outlived clusters: the survivors wait to be looked at. If there are none, nothing
was dissolved and no cluster was outlived. -/
theorem dissolveOutlived_spec (p : Tracing s cs keeping good (fun _ => False) weak t) :
    Yields (cs.dissolveOutlived s t) fun found =>
      Tracing s found.2.2.2 keeping good (· ∈ found.2.1) weak found.2.2.1 ∧
        t.Outlasts s found.2.2.1 ∧ (∀ h, t.Marked h → found.2.2.1.Marked h) ∧
        (found.2.1 = [] → found.2.2.1 = t ∧ found.2.2.2 = cs ∧
          ∀ c ∈ cs.list, Clusters.outlived t c = false) ∧
        ((∀ c ∈ cs.list, Clusters.outlived t c = false) → found.2.1 = []) := by
  let roots := (cs.list.filter (Clusters.outlived t)).map (·.root)
  have hfold := Ends.foldlM (f := Clusters.dissolveInto s)
    (fun left => Breaking s keeping good weak t cs roots left)
    (fun r left found b => b.step) (Breaking.start p)
  unfold Clusters.dissolveOutlived
  refine hfold.bind fun found hrun b => ⟨b.tracing, b.outlasts, b.marked, fun hnil => ?_,
    fun hnone => ?_⟩
  · obtain ⟨h1, h2, h3⟩ := b.idle hnil
    refine ⟨h1, h2, fun c hc => ?_⟩
    cases hout : Clusters.outlived t c with
    | false => rfl
    | true =>
      have hr : c.root ∈ roots := List.mem_map_of_mem (List.mem_filter.mpr ⟨hc, hout⟩)
      rw [← h3] at hr
      cases hr
  · have hroots : roots = [] := by
      refine List.map_eq_nil_iff.mpr (List.filter_eq_nil_iff.mpr fun c hc => ?_)
      rw [hnone c hc]
      decide
    change roots.foldlM _ _ = _ at hrun
    rw [hroots] at hrun
    cases hrun
    rfl

/-- The outcome of a mark: nothing waits, and no dead cluster has a member referenced from
outside. -/
structure Rested (s : Schema) (keeping : Bool) (good : Handle → Prop) (r : MarkResult) :
    Prop where
  tracing : Tracing s r.clusters keeping good (fun _ => False) (· ∈ r.weak) r.table
  outlived : ∀ c ∈ r.clusters.list, Clusters.outlived r.table c = false

/-- When members keep their clusters, or there are none, no cluster is outlived. -/
theorem Tracing.not_outlived (p : Tracing s cs keeping good gray weak t)
    (hk : keeping = true ∨ cs.list = []) (c : Cluster) (hc : c ∈ cs.list) :
    Clusters.outlived t c = false := by
  cases hout : Clusters.outlived t c with
  | false => rfl
  | true =>
    rcases hk with hk | hk
    · obtain ⟨hu, m, hm, hr⟩ := outlived_iff.mp hout
      obtain ⟨o, ho, hown, -⟩ := p.orderly.enrolled.member c hc m hm
      have hp := p.collectable_of_dead hc hu (Cluster.mem_objects.mpr (.inr hm))
      rw [Table.has_of_get? ho] at hr
      rw [(p.held hk m o c.root hp ho hown hr).isUnreachable] at hu
      cases hu
    · rw [hk] at hc
      cases hc

/-- A round of a mark looks at all that waits. -/
theorem Tracing.trace_round {plan : MarkPlan} (hleast : 0 < plan.waves.least)
    {frontier : List Handle} {r : MarkResult}
    (p : Tracing s r.clusters plan.memberKeepsCluster good (· ∈ frontier) (· ∈ r.weak) r.table) :
    Yields ((⟨s, r.clusters, plan.memberKeepsCluster⟩ : Tracer).trace plan.waves frontier r.table
      r.pool ⟨r.weak, r.scanned, r.waves⟩) fun traced =>
        Tracing s r.clusters plan.memberKeepsCluster good (fun _ => False)
          (· ∈ traced.tally.weak) traced.table ∧
        r.table.Advances s traced.table ∧ ∀ h ∈ frontier, traced.table.Marked h :=
  Tracer.trace_spec hleast r.pool p

/-- The rounds of a mark keep the invariant and end with nothing left to do. Where no cluster can
be outlived, there is one round, and the clusters stay as they are. -/
theorem markRounds_spec {plan : MarkPlan} (hleast : 0 < plan.waves.least) (fuel : Nat) :
    ∀ (frontier : List Handle) (r : MarkResult),
    Tracing s r.clusters plan.memberKeepsCluster good (· ∈ frontier) (· ∈ r.weak) r.table →
    Yields (markRounds s plan fuel frontier r) fun r' =>
      Rested s plan.memberKeepsCluster good r' ∧ r.table.Outlasts s r'.table ∧
        (∀ h, r.table.Marked h → r'.table.Marked h) ∧ (∀ h ∈ frontier, r'.table.Marked h) ∧
        (plan.memberKeepsCluster = true ∨ r.clusters.list = [] → r'.clusters = r.clusters) := by
  induction fuel with
  | zero =>
    intro frontier r _
    rw [markRounds]
    exact id
  | succ fuel ih =>
    intro frontier r p
    rw [markRounds]
    refine (Tracing.trace_round hleast p).bind ?_
    rintro traced _ ⟨hbetween, hadv, hfrontier⟩
    refine (dissolveOutlived_spec hbetween).bind ?_
    rintro ⟨count, survivors, table, clusters⟩ _ ⟨htracing, hout, hmarked, hidle, hquiet⟩
    dsimp only at htracing hout hmarked hidle hquiet ⊢
    have hout' : r.table.Outlasts s table := hadv.outlasts.trans hout
    split
    · rename_i hempty
      rw [List.isEmpty_iff] at hempty
      obtain ⟨rfl, rfl, hnone⟩ := hidle hempty
      exact ⟨⟨hbetween, hnone⟩, hout', fun h hh => hadv.marked hh, hfrontier, fun _ => rfl⟩
    · rename_i hempty
      refine (ih survivors _ htracing).mono fun r' hr' => ?_
      obtain ⟨hrested, hlast, hlastMarked, -, hsame⟩ := hr'
      refine ⟨hrested, hout'.trans hlast, fun h hh => hlastMarked h (hmarked h (hadv.marked hh)),
        fun h hh => hlastMarked h (hmarked h (hfrontier h hh)), fun hk => ?_⟩
      exact absurd (by rw [hquiet (hbetween.not_outlived hk)]; rfl) hempty

end

end TracingHeap

import TracingHeap.Proofs.Trace.Confluence
import TracingHeap.Proofs.Mark.Retention

namespace TracingHeap

/-- A weak reference that was written down: its slot is one of a claimed object and is reported as
weak, as long as it refers to something. -/
structure Met (s : Schema) (t : Table) (x : Site) : Prop where
  collectable : t.isPermanent x.object = false
  free : t.Free x.object
  weak : ∀ o g, t.get? x.object = some o → o.slot? x.address = some (some g) →
    s.Reports o x.address .weak

theorem Met.retains {s : Schema} {t t' : Table} {cs cs' : Clusters} {x : Site} (m : Met s t x)
    (ho : Orderly s t cs) (a : Retains s t cs t' cs') : Met s t' x := by
  refine ⟨(a.isPermanent x.object).trans m.collectable, a.free x.object m.free,
    fun o' g ho' hslot => ?_⟩
  obtain ⟨o, hget, hthin, -⟩ := Table.Evolves.back a.outlasts ho'
  have hrep := m.weak o g hget (hthin.slot_back hslot)
  exact hthin.reports_stays ho.regular (ho.fits _ o hget) hrep hslot

namespace Tracer

/-- What a trace writes down. -/
theorem Flooded.met {tr : Tracer} {good gray : Handle → Prop} {weak : Site → Prop} {w : Scope}
    {wave : List Handle} {t t' : Table} {tally tally' : Tally} {walks front : Handle → Prop} {x : Site}
    (b : Flooded tr good w wave t tally t' tally')
    (p : Tracing tr.schema tr.clusters tr.memberKeepsCluster good gray weak t)
    (hfront : ∀ h, front h → t.isPermanent h = false ∧ t'.Marked h)
    (hsoft : (tr.scope t walks front).soft x) : Met tr.schema t' x := by
  obtain ⟨hhit, -, o, g, ho, hown, -, hrep, -⟩ := hsoft
  have hp' := (b.advances.isPermanent x.object).trans
    (hits_collectable p (fun h hf => (hfront h hf).1) hhit)
  have hm := marked_of_hits p b.tracing b.advances hfront (fun h hg => hg.elim) hhit
  obtain ⟨o', ho', hadv⟩ := b.advances.kept ho
  refine ⟨hp', hm.free hp' ho' (hadv.owner.trans hown), fun q g' hq hslot => ?_⟩
  rw [ho'] at hq
  cases hq
  exact hadv.reports_stays p.orderly.regular (p.orderly.fits _ o ho) hrep hslot

end Tracer

section

variable {s : Schema} {keeping : Bool} {good : Handle → Prop} {weak : Site → Prop} {t t₁ t₂ : Table}
  {cs cs₁ cs₂ : Clusters} {frontier roots survivors : List Handle} {tally tally₁ : Tally}

/-- The clusters to be dissolved are different, and dead. -/
theorem Clusters.dead_of_filter (ho : Orderly s t cs) {f : Cluster → Bool}
    (hf : ∀ c ∈ cs.list, f c = true → t.isUnreachable c.root = true)
    (order : roots.Perm ((cs.list.filter f).map (·.root))) :
    roots.Nodup ∧ ∀ r ∈ roots, ∃ c ∈ cs.list, c.root = r ∧ t.isUnreachable r = true := by
  refine ⟨order.nodup_iff.mpr (ho.enrolled.distinct.sublist (List.filter_sublist.map _)),
    fun r hr => ?_⟩
  obtain ⟨c, hc, rfl⟩ := List.mem_map.mp (order.mem_iff.mp hr)
  obtain ⟨hc, hout⟩ := List.mem_filter.mp hc
  exact ⟨c, hc, rfl, hf c hc hout⟩

/-- A test that no cluster passes picks none. -/
theorem Clusters.roots_eq_nil {f : Cluster → Bool}
    (order : roots.Perm ((cs.list.filter f).map (·.root))) (hf : ∀ c ∈ cs.list, f c = false) :
    roots = [] := by
  refine List.eq_nil_iff_forall_not_mem.mpr fun r hr => ?_
  obtain ⟨c, hc, -⟩ := List.mem_map.mp (order.mem_iff.mp hr)
  obtain ⟨hc, hpicked⟩ := List.mem_filter.mp hc
  rw [hf c hc] at hpicked
  cases hpicked

/-- Where no cluster is to be dissolved, nothing happens. -/
theorem Clusters.Scatters.of_nil (run : Clusters.Scatters s [] (roots, t, cs) (survivors, t₁, cs₁)) :
    survivors = roots ∧ t₁ = t ∧ cs.Alike cs₁ := by
  cases run with
  | done alike => exact ⟨rfl, rfl, alike⟩
  | next order => cases List.nil_perm.mp order

/-- Dissolving the clusters that a test picks, all of them dead. -/
theorem Tracing.scattered {f : Cluster → Bool} {last : List Handle × Table × Clusters}
    (p : Tracing s cs keeping good (fun _ => False) weak t)
    (hf : ∀ c ∈ cs.list, f c = true → t.isUnreachable c.root = true)
    (order : roots.Perm ((cs.list.filter f).map (·.root)))
    (run : Clusters.Scatters s roots ([], t, cs) last) :
    Clusters.Scattered s keeping good weak t cs roots last := by
  obtain ⟨hdistinct, hdead⟩ := Clusters.dead_of_filter p.orderly hf order
  have hstart : Clusters.Scattered s keeping good weak t cs [] ([], t, cs) := .start p
  have b := run.scattered p.orderly (by simp) hdistinct
    (fun r hr => ⟨List.not_mem_nil, hdead r hr⟩) hstart
  rwa [List.append_nil] at b

structure Turned (s : Schema) (keeping : Bool) (good : Handle → Prop) (frontier : List Handle)
    (t : Table) (cs : Clusters) (tally : Tally) (t₁ : Table) (cs₁ : Clusters) (tally₁ : Tally)
    (roots survivors : List Handle) (t₂ : Table) (cs₂ : Clusters) : Prop where
  flooded : Tracer.Flooded ⟨s, cs₁, keeping⟩ good
    ((⟨s, cs₁, keeping⟩ : Tracer).scope t (fun _ => True) (· ∈ frontier)) frontier t tally t₁ tally₁
  dead : ∀ r ∈ roots, ∃ c ∈ cs₁.list, c.root = r ∧ t₁.isUnreachable r = true
  scattered : Clusters.Scattered s keeping good (· ∈ tally₁.weak) t₁ cs₁ roots (survivors, t₂, cs₂)
  traced : Retains s t cs t₁ cs₁
  dissolved : Retains s t₁ cs₁ t₂ cs₂

theorem Turned.retains (b : Turned s keeping good frontier t cs tally t₁ cs₁ tally₁ roots survivors t₂
    cs₂) : Retains s t cs t₂ cs₂ := b.traced.trans b.dissolved

theorem outlived_dead : ∀ c ∈ cs.list, Clusters.outlived t c = true →
    t.isUnreachable c.root = true :=
  fun _ _ h => (outlived_iff.mp h).1

/-- A trace and the dissolving after it are a turn. -/
theorem Turned.intro (p : Tracing s cs keeping good (· ∈ frontier) (· ∈ tally.weak) t)
    (same : cs.Alike cs₁) (floods : (Tracer.mk s cs₁ keeping).Floods frontier t tally t₁ tally₁)
    (order : roots.Perm ((cs₁.list.filter (Clusters.outlived t₁)).map (·.root)))
    (scatters : Clusters.Scatters s roots ([], t₁, cs₁) (survivors, t₂, cs₂)) :
    Turned s keeping good frontier t cs tally t₁ cs₁ tally₁ roots survivors t₂ cs₂ := by
  have p₁ := p.alike same
  have hf := floods.flooded p₁ (fun h hh => (p.queued h hh).1) (.refl t) (.refl t)
    (fun h hh => .front hh) p₁
  have b := hf.tracing.scattered outlived_dead order scatters
  have hdead := (Clusters.dead_of_filter hf.tracing.orderly outlived_dead order).2
  exact ⟨hf, hdead, b, (Retains.of_struck hf.advances hf.struck cs₁).alike_left same,
    b.retains hdead hf.tracing⟩

/-- If nothing survives, nothing was outlived. -/
theorem Turned.idle (b : Turned s keeping good frontier t cs tally t₁ cs₁ tally₁ roots [] t₂ cs₂)
    (order : roots.Perm ((cs₁.list.filter (Clusters.outlived t₁)).map (·.root))) : roots = [] := by
  refine List.eq_nil_iff_forall_not_mem.mpr fun r hr => ?_
  obtain ⟨c, hc, rfl⟩ := List.mem_map.mp (order.mem_iff.mp hr)
  obtain ⟨hc, hout⟩ := List.mem_filter.mp hc
  obtain ⟨-, m, hm, hflag⟩ := outlived_iff.mp hout
  have hsurvives : m ∈ roots.flatMap (cs₁.survivors t₁) := by
    refine List.mem_flatMap.mpr ⟨c.root, hr, ?_⟩
    rw [Clusters.survivors,
      Clusters.get?_of_mem b.flooded.tracing.orderly.enrolled.distinct hc]
    exact List.mem_filter.mpr ⟨hm, hflag⟩
  rw [← b.scattered.survivors.mem_iff] at hsurvives
  cases hsurvives

end

structure Rounded (s : Schema) (keeping : Bool) (good : Handle → Prop) (frontier : List Handle)
    (st r : Stand) : Prop where
  tracing : Tracing s r.clusters keeping good (fun _ => False) (· ∈ r.tally.weak) r.table
  outlived : ∀ c ∈ r.clusters.list, Clusters.outlived r.table c = false
  retains : Retains s st.table st.clusters r.table r.clusters
  marked : ∀ h ∈ frontier, r.table.Marked h
  met : ∀ x ∈ r.tally.weak, x ∈ st.tally.weak ∨ Met s r.table x

/-- Whatever the order of a mark, it keeps the invariant and ends with nothing left to do. The induction
is on the turns. -/
theorem MarksRounds.rounded {s : Schema} {keeping : Bool} {good : Handle → Prop}
    {frontier : List Handle} {st r : Stand} (run : MarksRounds s keeping frontier st r)
    (p : Tracing s st.clusters keeping good (· ∈ frontier) (· ∈ st.tally.weak) st.table) :
    Rounded s keeping good frontier st r := by
  induction run with
  | @last frontier roots t t₁ t₂ cs cs₁ cs₂ tally tally₁ n same floods order scatters =>
    have b := Turned.intro p same floods order scatters
    have hnone := b.idle order
    subst hnone
    obtain ⟨-, rfl, alike⟩ := scatters.of_nil
    have hfree : Tracing s cs₂ keeping good (fun _ => False) (· ∈ tally₁.weak) t₂ :=
      b.scattered.tracing.congr fun h => by simp
    refine ⟨hfree, fun c hc => ?_, b.retains, fun h hh => b.dissolved.marked h
      (b.flooded.marked h hh), fun x hx => (b.flooded.weak x hx).imp_right fun hsoft => ?_⟩
    · obtain ⟨d, hd, hdc⟩ := alike.back c hc
      cases hout : Clusters.outlived t₂ c with
      | false => rfl
      | true =>
        have hmem : d.root ∈ (cs₁.list.filter (Clusters.outlived t₂)).map (·.root) := by
          refine List.mem_map_of_mem (List.mem_filter.mpr ⟨hd, ?_⟩)
          rwa [Clusters.outlived, hdc.root, hdc.members] at hout
        rw [← order.mem_iff] at hmem
        cases hmem
    · exact b.flooded.met (p.alike same)
        (fun h hh => ⟨(p.queued h hh).1, b.flooded.marked h hh⟩) hsoft
  | @next frontier roots survivors t t₁ t₂ cs cs₁ cs₂ tally tally₁ n r same floods order scatters
      some others ih =>
    have b := Turned.intro p same floods order scatters
    have hlast := ih b.scattered.tracing
    refine ⟨hlast.tracing, hlast.outlived, b.retains.trans hlast.retains, fun h hh => ?_,
      fun x hx => ?_⟩
    · exact hlast.retains.marked h (b.dissolved.marked h (b.flooded.marked h hh))
    · rcases hlast.met x hx with hx | hm
      · refine (b.flooded.weak x hx).imp_right fun hsoft => ?_
        have hmet := b.flooded.met (p.alike same)
          (fun h hh => ⟨(p.queued h hh).1, b.flooded.marked h hh⟩) hsoft
        exact (hmet.retains b.flooded.tracing.orderly b.dissolved).retains
          b.scattered.tracing.orderly hlast.retains
      · exact .inr hm

section

variable {s : Schema} {keeping : Bool} {good : Handle → Prop} {t t₁ t₁' t₂ t₂' : Table}
  {cs cs' cs₁ cs₁' cs₂ cs₂' : Clusters} {frontier frontier' roots roots' survivors survivors' : List Handle}
  {tally tally' tally₁ tally₁' : Tally}

/-- The clusters that a test picks are the same in every order. -/
theorem Clusters.Alike.perm_filter (a : cs.Alike cs') (hd : (cs.list.map (·.root)).Nodup)
    {f : Cluster → Bool} (hf : ∀ c d, c.Alike d → f d = f c)
    (order : roots.Perm ((cs.list.filter f).map (·.root)))
    (order' : roots'.Perm ((cs'.list.filter f).map (·.root))) : roots.Perm roots' := by
  have hd' := a.roots.nodup_iff.mp hd
  have hpick : ∀ {ks ls : Clusters} {r : Handle}, ks.Alike ls →
      r ∈ (ks.list.filter f).map (·.root) → r ∈ (ls.list.filter f).map (·.root) := by
    intro ks ls r b hr
    obtain ⟨c, hc, rfl⟩ := List.mem_map.mp hr
    obtain ⟨hc, hfc⟩ := List.mem_filter.mp hc
    obtain ⟨d, hd, hcd⟩ := b.forth c hc
    rw [← hcd.root]
    exact List.mem_map_of_mem (List.mem_filter.mpr ⟨hd, (hf c d hcd).trans hfc⟩)
  refine order.trans (.trans ?_ order'.symm)
  exact (List.perm_ext_iff_of_nodup (hd.sublist (List.filter_sublist.map _))
    (hd'.sublist (List.filter_sublist.map _))).mpr fun r => ⟨hpick a, hpick a.symm⟩

theorem Cluster.Alike.outlived {c d : Cluster} (a : c.Alike d) :
    Clusters.outlived t d = Clusters.outlived t c := by
  rw [Clusters.outlived, Clusters.outlived, a.root, a.members]

/-- Two turns from one table, with the same frontier and the same clusters, come to the same. -/
theorem Turned.confluent (p : Tracing s cs keeping good (· ∈ frontier) (· ∈ tally.weak) t)
    (p' : Tracing s cs' keeping good (· ∈ frontier') (· ∈ tally'.weak) t) (hpaired : t.Paired)
    (a : cs.Alike cs') (hperm : frontier.Perm frontier')
    (hscanned : tally'.scanned = tally.scanned) (hwaves : tally'.waves = tally.waves)
    (same : cs.Alike cs₁) (floods : (Tracer.mk s cs₁ keeping).Floods frontier t tally t₁ tally₁)
    (order : roots.Perm ((cs₁.list.filter (Clusters.outlived t₁)).map (·.root)))
    (scatters : Clusters.Scatters s roots ([], t₁, cs₁) (survivors, t₂, cs₂))
    (same' : cs'.Alike cs₁')
    (floods' : (Tracer.mk s cs₁' keeping).Floods frontier' t tally' t₁' tally₁')
    (order' : roots'.Perm ((cs₁'.list.filter (Clusters.outlived t₁')).map (·.root)))
    (scatters' : Clusters.Scatters s roots' ([], t₁', cs₁') (survivors', t₂', cs₂')) :
    t₂' = t₂ ∧ survivors.Perm survivors' ∧ cs₂.Alike cs₂' ∧ roots'.length = roots.length ∧
      tally₁'.scanned = tally₁.scanned ∧ tally₁'.waves = tally₁.waves := by
  have b := Turned.intro p same floods order scatters
  have b' := Turned.intro p' same' floods' order' scatters'
  have halike := same.symm.trans (a.trans same')
  obtain ⟨rfl, hs, hw⟩ := floods.confluent halike floods' hperm hscanned hwaves (p.alike same)
    (p'.alike same') hpaired
  have ho := b.flooded.tracing.orderly
  have hroots := halike.perm_filter ho.enrolled.distinct (fun _ _ hcd => hcd.outlived) order order'
  obtain ⟨htable, hsurvivors, hclusters⟩ := b.scattered.confluent ho halike hroots b'.scattered
  exact ⟨htable, hsurvivors, hclusters, hroots.length_eq.symm, hs, hw⟩

end

/-- Two marks from one table, with the same frontier and the same clusters, come to the same. The
induction is on the turns of the first. -/
theorem MarksRounds.confluent {s : Schema} {keeping : Bool} {good : Handle → Prop}
    {frontier frontier' : List Handle} {st st' r r' : Stand}
    (run : MarksRounds s keeping frontier st r) (run' : MarksRounds s keeping frontier' st' r')
    (hperm : frontier.Perm frontier') (htable : st'.table = st.table)
    (a : st.clusters.Alike st'.clusters) (hscanned : st'.tally.scanned = st.tally.scanned)
    (hwaves : st'.tally.waves = st.tally.waves) (hdissolved : st'.dissolved = st.dissolved)
    (p : Tracing s st.clusters keeping good (· ∈ frontier) (· ∈ st.tally.weak) st.table)
    (p' : Tracing s st'.clusters keeping good (· ∈ frontier') (· ∈ st'.tally.weak) st'.table)
    (hpaired : st.table.Paired) :
    r'.table = r.table ∧ r.clusters.Alike r'.clusters ∧ r'.tally.scanned = r.tally.scanned ∧
      r'.tally.waves = r.tally.waves ∧ r'.dissolved = r.dissolved := by
  induction run generalizing frontier' st' with
  | last same floods order scatters =>
    cases run' with
    | last same' floods' order' scatters' =>
      cases htable
      cases hdissolved
      obtain ⟨h1, -, h3, h4, h5, h6⟩ := Turned.confluent p p' hpaired a hperm hscanned hwaves same
        floods order scatters same' floods' order' scatters'
      exact ⟨h1, h3, h5, h6, congrArg (_ + ·) h4⟩
    | next same' floods' order' scatters' some' =>
      cases htable
      cases hdissolved
      have hsurvivors := (Turned.confluent p p' hpaired a hperm hscanned hwaves same floods order
        scatters same' floods' order' scatters').2.1
      exact absurd (List.nil_perm.mp hsurvivors) some'
  | next same floods order scatters some others ih =>
    cases run' with
    | last same' floods' order' scatters' =>
      cases htable
      cases hdissolved
      have hsurvivors := (Turned.confluent p p' hpaired a hperm hscanned hwaves same floods order
        scatters same' floods' order' scatters').2.1
      exact absurd (List.perm_nil.mp hsurvivors) some
    | next same' floods' order' scatters' some' others' =>
      cases htable
      cases hdissolved
      obtain ⟨h1, h2, h3, h4, h5, h6⟩ := Turned.confluent p p' hpaired a hperm hscanned hwaves same
        floods order scatters same' floods' order' scatters'
      have b := Turned.intro p same floods order scatters
      have b' := Turned.intro p' same' floods' order' scatters'
      exact ih others' h2 h1 h3 h5 h6 (congrArg (_ + ·) h4) b.scattered.tracing
        (h1 ▸ b'.scattered.tracing) (b.retains.paired hpaired)

end TracingHeap

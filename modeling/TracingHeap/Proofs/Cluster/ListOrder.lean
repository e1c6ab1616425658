import TracingHeap.Proofs.Trace.Invariant
import TracingHeap.Proofs.Collection.Schedule

namespace TracingHeap

namespace Cluster

variable {c d e : Cluster} {t : Table} {g : Handle}

namespace Alike

theorem refl (c : Cluster) : c.Alike c := ⟨rfl, rfl, .refl _, .refl _⟩

theorem symm (a : c.Alike d) : d.Alike c :=
  ⟨a.root.symm, a.members.symm, a.referenced.symm, a.mutables.symm⟩

theorem trans (a : c.Alike d) (b : d.Alike e) : c.Alike e :=
  ⟨b.root.trans a.root, b.members.trans a.members, a.referenced.trans b.referenced,
    a.mutables.trans b.mutables⟩

theorem objects (a : c.Alike d) : d.objects = c.objects := by
  rw [Cluster.objects, Cluster.objects, a.root, a.members]

theorem mem_referenced (a : c.Alike d) : g ∈ d.referenced ↔ g ∈ c.referenced :=
  a.referenced.mem_iff.symm

theorem mem_mutables (a : c.Alike d) : g ∈ d.mutables ↔ g ∈ c.mutables :=
  a.mutables.mem_iff.symm

theorem notes (a : c.Alike d) (hn : c.Notes t g) : d.Notes t g := by
  rcases hn with hm | ⟨r, hr, hroot⟩
  · exact .inl (a.mem_mutables.mpr hm)
  · exact .inr ⟨r, a.mem_referenced.mpr hr, hroot⟩

end Alike

end Cluster

namespace Clusters.Alike

variable {cs ds es : Clusters} {r : Handle}

theorem refl (cs : Clusters) : cs.Alike cs :=
  ⟨.refl _, fun c hc => ⟨c, hc, .refl c⟩, fun c hc => ⟨c, hc, .refl c⟩⟩

theorem symm (a : cs.Alike ds) : ds.Alike cs :=
  ⟨a.roots.symm, fun d hd => (a.back d hd).imp fun _ hc => ⟨hc.1, hc.2.symm⟩,
    fun c hc => (a.forth c hc).imp fun _ hd => ⟨hd.1, hd.2.symm⟩⟩

theorem trans (a : cs.Alike ds) (b : ds.Alike es) : cs.Alike es := by
  refine ⟨a.roots.trans b.roots, fun c hc => ?_, fun e he => ?_⟩
  · obtain ⟨d, hd, hcd⟩ := a.forth c hc
    obtain ⟨e, he, hde⟩ := b.forth d hd
    exact ⟨e, he, hcd.trans hde⟩
  · obtain ⟨d, hd, hde⟩ := b.back e he
    obtain ⟨c, hc, hcd⟩ := a.back d hd
    exact ⟨c, hc, hcd.trans hde⟩

theorem registered (a : cs.Alike ds) (hr : ∃ c ∈ cs.list, c.root = r) :
    ∃ d ∈ ds.list, d.root = r := by
  obtain ⟨c, hc, rfl⟩ := hr
  obtain ⟨d, hd, hcd⟩ := a.forth c hc
  exact ⟨d, hd, hcd.root⟩

end Clusters.Alike

section

variable {s : Schema} {t : Table} {cs ds : Clusters} {good gray : Handle → Prop}
  {weak : Site → Prop} {keeping : Bool}

theorem Enrolled.alike (he : Enrolled t cs) (a : cs.Alike ds) : Enrolled t ds := by
  refine ⟨a.roots.nodup_iff.mp he.distinct, fun d hd => ?_, fun h o ho hf => ?_,
    fun d hd m hm => ?_, fun h o r ho hr => ?_, fun d hd => ?_, fun d hd m hm => ?_⟩
  · obtain ⟨c, hc, hcd⟩ := a.back d hd
    rw [hcd.root]
    exact he.root c hc
  · exact a.registered (he.registered h o ho hf)
  · obtain ⟨c, hc, hcd⟩ := a.back d hd
    rw [hcd.root]
    exact he.member c hc m (hcd.members ▸ hm)
  · obtain ⟨c, hc, hroot, hm⟩ := he.listed h o r ho hr
    obtain ⟨d, hd, hcd⟩ := a.forth c hc
    exact ⟨d, hd, hcd.root.trans hroot, hcd.members ▸ hm⟩
  · obtain ⟨c, hc, hcd⟩ := a.back d hd
    obtain ⟨h1, h2, h3⟩ := he.nodup c hc
    exact ⟨hcd.members ▸ h1, hcd.referenced.nodup_iff.mp h2, hcd.mutables.nodup_iff.mp h3⟩
  · obtain ⟨c, hc, hcd⟩ := a.back d hd
    rw [hcd.root]
    exact he.pooled c hc m (hcd.members ▸ hm)

theorem Cluster.Tracks.alike {c d : Cluster} (htr : c.Tracks s t cs) (a : cs.Alike ds)
    (hcd : c.Alike d) : d.Tracks s t ds := by
  refine ⟨fun r hr => a.registered (htr.referenced r (hcd.mem_referenced.mp hr)),
    fun m hm => htr.mutables m (hcd.mem_mutables.mp hm), fun h hh g he hp hout => ?_⟩
  rw [hcd.objects] at hh hout
  exact hcd.notes (htr.covered h hh g he hp hout)

theorem Orderly.alike (ho : Orderly s t cs) (a : cs.Alike ds) : Orderly s t ds := by
  refine ⟨ho.regular, ho.tidy, ho.fits, ho.enrolled.alike a, fun d hd hp => ?_, ho.unkilled⟩
  obtain ⟨c, hc, hcd⟩ := a.back d hd
  exact (ho.tracked c hc (hcd.root ▸ hp)).alike a hcd

theorem Closed.alike (hcl : Closed s t cs good) (a : cs.Alike ds) : Closed s t ds good := by
  refine ⟨hcl.strong, fun d hd hp h hh hg g hgd => ?_, fun d hd hp hg m hm hpm => ?_,
    fun d hd hp hg r hr hpr => ?_⟩
  · obtain ⟨c, hc, hcd⟩ := a.back d hd
    rw [hcd.objects] at hh hgd
    exact hcl.peers c hc (hcd.root ▸ hp) h hh hg g hgd
  · obtain ⟨c, hc, hcd⟩ := a.back d hd
    rw [hcd.root] at hp hg
    exact hcl.mutables c hc hp hg m (hcd.mem_mutables.mp hm) hpm
  · obtain ⟨c, hc, hcd⟩ := a.back d hd
    rw [hcd.root] at hp hg
    exact hcl.referenced c hc hp hg r (hcd.mem_referenced.mp hr) hpr

theorem Traced.alike {h : Handle} (ht : Traced s cs weak t h) (a : cs.Alike ds) :
    Traced s ds weak t h := by
  refine ⟨ht.seen, fun d hd hroot => ?_⟩
  obtain ⟨c, hc, hcd⟩ := a.back d hd
  obtain ⟨hm, hr⟩ := ht.expanded c hc (hcd.root.symm.trans hroot)
  exact ⟨fun m hm' => hm m (hcd.mem_mutables.mp hm'),
    fun r hr' => hr r (hcd.mem_referenced.mp hr')⟩

theorem Tracing.alike (p : Tracing s cs keeping good gray weak t) (a : cs.Alike ds) :
    Tracing s ds keeping good gray weak t := by
  refine ⟨p.orderly.alike a, p.closed.alike a, p.linked, fun d hd hp => ?_, p.queued,
    fun h hp hf => (p.traced h hp hf).imp_right fun ht => ht.alike a, p.within, p.held⟩
  obtain ⟨c, hc, hcd⟩ := a.back d hd
  rw [hcd.root] at hp ⊢
  exact p.pool c hc hp

end

end TracingHeap

import TracingHeap.Proofs.Cluster.ListOrder
import TracingHeap.Proofs.Trace.ScopeKept

namespace TracingHeap

def Table.Lone (t : Table) (h : Handle) : Prop :=
  ∃ o, t.get? h = some o ∧ o.owner = none ∧ o.has .clusterRoot = false

/-- The objects that a trace comes to from a front; `walks` tells whose references are followed. -/
inductive Hits (tr : Tracer) (t : Table) (walks front : Handle → Prop) : Handle → Prop where
  | front {h : Handle} (hf : front h) : Hits tr t walks front h
  | edge {g h : Handle} (hh : Hits tr t walks front h) (hw : walks h) (lone : t.Lone h)
      (he : Edge tr.schema t h .strong g) (hp : t.isPermanent g = false)
      (hk : t.has g .pendingKill = false) : Hits tr t walks front g
  | keeper {h r : Handle} {o : Object} (hk : tr.memberKeepsCluster = true)
      (hh : Hits tr t walks front h) (ho : t.get? h = some o) (hr : o.owner = some r) :
      Hits tr t walks front r
  | mutables {c : Cluster} {g : Handle} (hc : c ∈ tr.clusters.list)
      (hh : Hits tr t walks front c.root) (hg : g ∈ c.mutables) (hp : t.isPermanent g = false) :
      Hits tr t walks front g
  | referenced {c : Cluster} {r : Handle} (hc : c ∈ tr.clusters.list)
      (hh : Hits tr t walks front c.root) (hr : r ∈ c.referenced) (hp : t.isPermanent r = false) :
      Hits tr t walks front r

namespace Tracer

def scope (tr : Tracer) (t : Table) (walks front : Handle → Prop) : Scope where
  hit := Hits tr t walks front
  cut site := Hits tr t walks front site.object ∧ walks site.object ∧ ∃ o k g,
    t.get? site.object = some o ∧ o.owner = none ∧ o.has .clusterRoot = false ∧
      tr.schema.Reports o site.address k ∧ o.slot? site.address = some (some g) ∧ ¬ t.Tenable g
  soft site := Hits tr t walks front site.object ∧ walks site.object ∧ ∃ o g,
    t.get? site.object = some o ∧ o.owner = none ∧ o.has .clusterRoot = false ∧
      tr.schema.Reports o site.address .weak ∧ o.slot? site.address = some (some g)

variable {tr : Tracer} {keeping : Bool} {good gray : Handle → Prop} {weak : Site → Prop}
  {t t' : Table} {walks front : Handle → Prop} {h : Handle} {late : Handle → Prop}

theorem hits_collectable (p : Tracing tr.schema tr.clusters keeping good gray weak t)
    (hfront : ∀ h, front h → t.isPermanent h = false) (hh : Hits tr t walks front h) :
    t.isPermanent h = false := by
  induction hh with
  | front hf => exact hfront _ hf
  | edge _ _ _ _ hp _ => exact hp
  | keeper _ _ ho hr ih =>
    obtain ⟨c, hc, rfl, hm⟩ := p.orderly.enrolled.listed _ _ _ ho hr
    rw [← p.orderly.enrolled.pooled c hc _ hm]
    exact ih
  | mutables _ _ _ hp _ => exact hp
  | referenced _ _ _ hp _ => exact hp

/-- The bounds hold with a cluster what it keeps. -/
theorem scope_admits (p : Tracing tr.schema tr.clusters keeping good gray weak t)
    (hfront : ∀ h, front h → t.isPermanent h = false) :
    tr.Admits (tr.scope t walks front) t := by
  have he := p.orderly.enrolled
  refine ⟨fun hk h o r ho hr hh _ => .keeper hk hh ho hr, fun h o r ho hr => ?_,
    fun c hc hh g hg hp => .mutables hc hh hg hp, fun c hc hh r hr hu => ?_⟩
  · obtain ⟨c, hc, rfl, -⟩ := he.listed h o r ho hr
    obtain ⟨q, hq, hf, -⟩ := he.root c hc
    rw [Table.has_of_get? hq, hf]
  · have hp := hits_collectable p hfront hh
    obtain ⟨d, hd, rfl⟩ := (p.orderly.tracked c hc hp).referenced r hr
    obtain ⟨q, hq, hf, -⟩ := he.root d hd
    refine ⟨.referenced hc hh hr ?_, by rw [Table.has_of_get? hq, hf]⟩
    cases hpd : t.isPermanent d.root with
    | false => rfl
    | true => rw [(p.pool d hd hpd).isUnreachable] at hu; cases hu

/-- A later table looks at the slots of an object within the bounds. -/
theorem scope_licenses (p : Tracing tr.schema tr.clusters keeping good gray weak t)
    (a : t.Advances tr.schema t') (hh : Hits tr t walks front h) (hw : walks h) :
    tr.Licenses (tr.scope t walks front) t' h := by
  refine ⟨hh, fun o' b k ho' hroot hown hrep => ?_⟩
  obtain ⟨o, ho, hadv, -⟩ := Table.Evolves.back a ho'
  have hfit := p.orderly.fits h o ho
  rw [hadv.flag .clusterRoot (by decide) (by decide) (by decide)] at hroot
  rw [hadv.owner] at hown
  -- what the later table holds in a slot, and reports, the earlier one did
  have hback : ∀ g, t'.slotAt? ⟨h, b⟩ = some (some g) →
      o.slot? b = some (some g) ∧ tr.schema.Reports o b k := by
    intro g hslot
    rw [Table.slotAt?_eq ho'] at hslot
    have hslot' := hadv.slot_back hslot
    exact ⟨hslot', hadv.reports_back p.orderly.regular hfit hrep hslot⟩
  refine ⟨fun g hslot hk hp hkill => ?_, fun g hslot hten => ?_, fun g hslot hk => ?_⟩
  · obtain ⟨hs, hr⟩ := hback g hslot
    rw [a.isPermanent] at hp
    rw [a.has (by decide) (by decide) (by decide)] at hkill
    exact .edge hh hw ⟨o, ho, hown, hroot⟩ ⟨o, b, ho, hk ▸ hr, hs⟩ hp hkill
  · obtain ⟨hs, hr⟩ := hback g hslot
    exact ⟨hh, hw, o, k, g, ho, hown, hroot, hr, hs, fun ht => hten (ht.advance a)⟩
  · obtain ⟨hs, hr⟩ := hback g hslot
    exact ⟨hh, hw, o, g, ho, hown, hroot, hk ▸ hr, hs⟩

/-- A trace that has looked at all whose references it follows, and at all roots, has come to whatever
it might. -/
theorem marked_of_hits (p₀ : Tracing tr.schema tr.clusters keeping good gray weak t)
    {good' gray' : Handle → Prop} {weak' : Site → Prop}
    (p : Tracing tr.schema tr.clusters tr.memberKeepsCluster good' gray' weak' t')
    (a : t.Advances tr.schema t') (hfront : ∀ h, front h → t.isPermanent h = false ∧ t'.Marked h)
    (hgray : ∀ h, gray' h → ¬ walks h ∧ t.has h .clusterRoot = false)
    (hh : Hits tr t walks front h) : t'.Marked h := by
  have ho := p₀.orderly
  have hcollectable : ∀ {x}, Hits tr t walks front x → t.isPermanent x = false := fun hx =>
    hits_collectable p₀ (fun h hf => (hfront h hf).1) hx
  -- the root of a cluster that was met has been looked at
  have hroots : ∀ c ∈ tr.clusters.list, Hits tr t walks front c.root → t'.Marked c.root →
      (∀ m ∈ c.mutables, t'.Marked m) ∧ ∀ r ∈ c.referenced, t'.Free r := by
    intro c hc hx hm
    obtain ⟨o', ho', -, hn⟩ := p.orderly.enrolled.root c hc
    obtain ⟨o, hget, hflag, -⟩ := ho.enrolled.root c hc
    have hp' := (a.isPermanent c.root).trans (hcollectable hx)
    refine ((p.traced c.root hp' (hm.free hp' ho' hn)).resolve_left fun hg => ?_).expanded c hc rfl
    have hflag' := (hgray c.root hg).2
    rw [Table.has_of_get? hget, hflag] at hflag'
    cases hflag'
  induction hh with
  | front hf => exact (hfront _ hf).2
  | @edge g h hh hw lone he hp hk ih =>
    obtain ⟨o, hget, hown, hflag⟩ := lone
    obtain ⟨o', ho', hadv⟩ := a.kept hget
    have hp' := (a.isPermanent h).trans (hcollectable hh)
    have hdone := (p.traced h hp' (ih.free hp' ho' (hadv.owner.trans hown))).resolve_left
      fun hg => (hgray h hg).1 hw
    obtain ⟨q, b, hq, hrep, hslot⟩ := he.stays ho.regular ho.fits a (fun _ _ _ hr => hr.1.toThins)
      (by simp [hk])
    rw [ho'] at hq
    cases hq
    rw [← hadv.flag .clusterRoot (by decide) (by decide) (by decide)] at hflag
    exact (hdone.seen o' b .strong g ho' hflag hrep hslot).1
  | @keeper h r o hk hh hget hr ih =>
    obtain ⟨o', ho', hadv⟩ := a.kept hget
    have hp' := (a.isPermanent h).trans (hcollectable hh)
    have hown : o'.owner = some r := hadv.owner.trans hr
    have hawake := p.held hk h o' r hp' ho' hown (ih.inCluster hp' ho' (by simp [hown]))
    obtain ⟨c, hc, rfl, -⟩ := p.orderly.enrolled.listed h o' r ho' hown
    obtain ⟨q, hq, -, hn⟩ := p.orderly.enrolled.root c hc
    exact Table.Free.marked ⟨q, hq, hn, hawake.of_get? hq⟩
  | mutables hc hh hg hp ih => exact (hroots _ hc hh ih).1 _ hg
  | referenced hc hh hr hp ih => exact ((hroots _ hc hh ih).2 _ hr).marked

end Tracer

/-- What a trace comes to does not depend on the order of the clusters. -/
theorem Hits.alike {s : Schema} {cs ds : Clusters} {keeping : Bool} {t : Table}
    {walks front : Handle → Prop} {h : Handle} (a : cs.Alike ds)
    (hh : Hits ⟨s, cs, keeping⟩ t walks front h) : Hits ⟨s, ds, keeping⟩ t walks front h := by
  induction hh with
  | front hf => exact .front hf
  | edge _ hw lone he hp hk ih => exact .edge ih hw lone he hp hk
  | keeper hk _ ho hr ih => exact .keeper hk ih ho hr
  | @mutables c g hc _ hg hp ih =>
    obtain ⟨d, hd, hcd⟩ := a.forth c hc
    rw [← hcd.root] at ih
    exact .mutables hd ih (hcd.mem_mutables.mpr hg) hp
  | @referenced c r hc _ hr hp ih =>
    obtain ⟨d, hd, hcd⟩ := a.forth c hc
    rw [← hcd.root] at ih
    exact .referenced hd ih (hcd.mem_referenced.mpr hr) hp

end TracingHeap

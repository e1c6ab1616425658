import TracingHeap.Proofs.Mark.DissolutionOrder
import TracingHeap.Proofs.Trace.WaveRuns

namespace TracingHeap

structure Object.Exactly (s : Schema) (w : Scope) (dead : Handle → Prop) (h : Handle)
    (o o' : Object) : Prop extends o.Thins s dead o' where
  owner : o'.owner = o.owner
  rest : o'.flags.remove .marks = o.flags.remove .marks
  unreachable : o'.isUnreachable = true ↔ o.isUnreachable = true ∧ ¬ w.hit h
  inCluster : o'.has .reachableInCluster = true ↔
    o.has .reachableInCluster = true ∨ w.hit h ∧ o.owner.isSome = true
  noStrong : o'.has .noStrongReference = true ↔
    o.has .noStrongReference = true ∧ o'.isUnreachable = true
  cut : ∀ a, w.cut ⟨h, a⟩ → o'.slot? a = some none
  uncut : ∀ a, ¬ w.cut ⟨h, a⟩ → o'.slot? a = o.slot? a

/-- The object is known. -/
theorem Object.Exactly.unique {s : Schema} {w w' : Scope} {dead dead' : Handle → Prop} {h : Handle}
    {o p q : Object} (a : o.Exactly s w dead h p) (b : o.Exactly s w' dead' h q)
    (hhit : w.hit h ↔ w'.hit h) (hcut : ∀ x, w.cut ⟨h, x⟩ ↔ w'.cut ⟨h, x⟩) : q = p := by
  have hcells : q.cells = p.cells := by
    refine b.toThins.cells_ext a.toThins fun x => ?_
    by_cases hx : w.cut ⟨h, x⟩
    · rw [a.cut x hx, b.cut x ((hcut x).mp hx)]
    · rw [a.uncut x hx, b.uncut x (mt (hcut x).mpr hx)]
  have hu : q.isUnreachable = p.isUnreachable := by
    rw [Bool.eq_iff_iff, a.unreachable, b.unreachable, hhit]
  have hr : q.has .reachableInCluster = p.has .reachableInCluster := by
    rw [Bool.eq_iff_iff, a.inCluster, b.inCluster, hhit]
  have hn : q.has .noStrongReference = p.has .noStrongReference := by
    rw [Bool.eq_iff_iff, a.noStrong, b.noStrong, hu]
  have hflags : q.flags = p.flags :=
    Flags.ext_marks (b.rest.trans a.rest.symm) hu hr hn
  have hsame : p.Same q := ⟨b.handle.trans a.handle.symm, b.classId.trans a.classId.symm,
    b.name.trans a.name.symm⟩
  exact eq_of_same hsame hflags (b.owner.trans a.owner.symm) hcells

structure Table.Exactly (s : Schema) (w : Scope) (t t' : Table) : Prop extends t.Frame t' where
  objects : t.Evolves (fun h o o' => o.Exactly s w (fun g => t.has g .pendingKill = true) h o') t'

theorem Table.Exactly.unique {s : Schema} {w w' : Scope} {t t₁ t₂ : Table} (ht : t.Tidy)
    (a : t.Exactly s w t₁) (b : t.Exactly s w' t₂) (hhit : ∀ h, w.hit h ↔ w'.hit h)
    (hcut : ∀ x, w.cut x ↔ w'.cut x) : t₂ = t₁ := by
  refine ext_get? (a.objects.tidy ht) (b.objects.tidy ht) (a.toFrame.symm.trans b.toFrame)
    (b.objects.boundary.trans a.objects.boundary.symm) fun h => ?_
  cases hg : t.get? h with
  | none => rw [a.objects.gone h hg, b.objects.gone h hg]
  | some o =>
    obtain ⟨p, hp, hop⟩ := a.objects.kept h o hg
    obtain ⟨q, hq, hoq⟩ := b.objects.kept h o hg
    rw [hp, hq, hop.unique hoq (hhit h) fun x => hcut ⟨h, x⟩]

namespace Tracer

variable {tr : Tracer} {good : Handle → Prop} {wave wave' : List Handle} {t t' : Table}
  {tally tally' : Tally}

/-- A wave comes to whatever it might. -/
theorem Waved.marked_of_hits
    (b : Waved tr good (tr.scope t (· ∈ wave) (· ∈ wave)) wave t tally wave' t' tally')
    (p : Tracing tr.schema tr.clusters tr.memberKeepsCluster good (· ∈ wave) (· ∈ tally.weak) t)
    {h : Handle} (hh : Hits tr t (· ∈ wave) (· ∈ wave) h) : t'.Marked h := by
  refine Tracer.marked_of_hits p b.tracing b.advances (fun h hm => ⟨(p.queued h hm).1, b.marked h hm⟩)
    (fun h hm => ?_) hh
  obtain ⟨hu, -, hroot⟩ := (b.next h).mp hm
  refine ⟨fun hw => ?_, (b.struck.has (by decide) h).symm.trans hroot⟩
  obtain ⟨-, -, o, ho, hawake⟩ := p.queued h hw
  rw [Table.isUnreachable_of_get? ho] at hu
  rw [hawake (p.owner_eq_none ho hu)] at hu
  cases hu

/-- A wave empties whatever it may. -/
theorem Waved.cut_of_scope
    (b : Waved tr good (tr.scope t (· ∈ wave) (· ∈ wave)) wave t tally wave' t' tally')
    (p : Tracing tr.schema tr.clusters tr.memberKeepsCluster good (· ∈ wave) (· ∈ tally.weak) t)
    {h : Handle} {o' : Object} {a : Address} (ho' : t'.get? h = some o')
    (hcut : (tr.scope t (· ∈ wave) (· ∈ wave)).cut ⟨h, a⟩) : o'.slot? a = some none := by
  obtain ⟨-, hw, o, k, g, ho, hown, hroot, hrep, hslot, hten⟩ := hcut
  dsimp only at hw ho hrep hslot
  obtain ⟨q, hq, hs⟩ := b.struck.objects.kept h o ho
  rw [ho'] at hq
  cases hq
  refine (hs.slots a).elim (fun hsame => ?_) And.right
  -- the object is done with, so what is left in a slot is tenable
  rw [hslot] at hsame
  obtain ⟨hp, -⟩ := p.queued h hw
  obtain ⟨q, hq, hadv⟩ := b.advances.kept ho
  rw [ho'] at hq
  cases hq
  have hp' := (b.advances.isPermanent h).trans hp
  have hfree := (b.marked h hw).free hp' ho' (hadv.owner.trans hown)
  have hdone := (b.tracing.traced h hp' hfree).resolve_left fun hm => by
    obtain ⟨hu, -, -⟩ := (b.next h).mp hm
    obtain ⟨-, -, q, hq, hawake⟩ := p.queued h hw
    rw [Table.isUnreachable_of_get? hq] at hu
    rw [hawake (p.owner_eq_none hq hu)] at hu
    cases hu
  have hrep' := hadv.reports_stays p.orderly.regular (p.orderly.fits h o ho) hrep hsame
  rw [← hadv.flag .clusterRoot (by decide) (by decide) (by decide)] at hroot
  have hten' := (hdone.seen o' a k g ho' hroot hrep' hsame).2
  exact absurd (b.struck.tenable.mp hten') hten

/-- What a wave does is told exactly by what it comes to. -/
theorem Waved.exactly
    (b : Waved tr good (tr.scope t (· ∈ wave) (· ∈ wave)) wave t tally wave' t' tally')
    (p : Tracing tr.schema tr.clusters tr.memberKeepsCluster good (· ∈ wave) (· ∈ tally.weak) t)
    (hpaired : t.Paired) : t.Exactly tr.schema (tr.scope t (· ∈ wave) (· ∈ wave)) t' := by
  refine ⟨b.struck.toFrame, ⟨b.struck.objects.boundary, b.struck.objects.tidy,
    b.struck.objects.gone, fun h o ho => ?_⟩⟩
  obtain ⟨o', ho', hs⟩ := b.struck.objects.kept h o ho
  obtain ⟨q, hq, hadv⟩ := b.advances.kept ho
  rw [ho'] at hq
  cases hq
  have hhit : ∀ hh : Hits tr t (· ∈ wave) (· ∈ wave) h, t'.isPermanent h = false ∧ t'.Marked h :=
    fun hh => ⟨(b.advances.isPermanent h).trans
      (hits_collectable p (fun x hx => (p.queued x hx).1) hh), b.marked_of_hits p hh⟩
  have hclaimed : ∀ hu : o.isUnreachable = true, o'.isUnreachable = false →
      o'.has .noStrongReference = false := fun hu hu' =>
    (hs.claimed hu hu').2.resolve_right id
  refine ⟨o', ho', hadv.toThins, hs.owner, hs.rest, ⟨fun hu' => ⟨hs.kept hu', fun hh => ?_⟩,
    fun ⟨hu, hnot⟩ => ?_⟩, ⟨fun hr => hs.flagged hr, fun hr => ?_⟩, ⟨fun hn => ⟨hs.fewer hn, ?_⟩,
    fun ⟨hn, hu'⟩ => (hs.still hu').trans hn⟩, fun a hcut => b.cut_of_scope p ho' hcut,
    fun a hnot => (hs.slots a).resolve_right fun hx => hnot hx.1⟩
  · obtain ⟨hp', hm⟩ := hhit hh
    have hown := p.owner_eq_none ho (hs.kept hu')
    have hawake := (hm.free hp' ho' (hs.owner.trans hown)).awake.of_get? ho'
    rw [hu'] at hawake
    cases hawake
  · cases hu' : o'.isUnreachable with
    | true => rfl
    | false => exact absurd (hs.claimed hu hu').1 hnot
  · rcases hr with hr | ⟨hh, hown⟩
    · exact hs.inCluster hr
    · obtain ⟨hp', hm⟩ := hhit hh
      refine hm.inCluster hp' ho' ?_
      rw [hs.owner]
      exact Option.isSome_iff_ne_none.mp hown
  · cases hu' : o'.isUnreachable with
    | true => rfl
    | false =>
      rw [hclaimed (hpaired h o ho (hs.fewer hn)) hu'] at hn
      cases hn

end Tracer

/-- The bounds of a trace do not depend on the order of the clusters. -/
theorem Tracer.scope_alike {s : Schema} {cs ds : Clusters} {keeping : Bool} {t : Table}
    {walks front walks' front' : Handle → Prop} (a : cs.Alike ds) (hw : ∀ h, walks h ↔ walks' h)
    (hf : ∀ h, front h ↔ front' h) :
    (∀ h, ((⟨s, cs, keeping⟩ : Tracer).scope t walks front).hit h ↔
      ((⟨s, ds, keeping⟩ : Tracer).scope t walks' front').hit h) ∧
    ∀ x, ((⟨s, cs, keeping⟩ : Tracer).scope t walks front).cut x ↔
      ((⟨s, ds, keeping⟩ : Tracer).scope t walks' front').cut x := by
  have hwalks : walks = walks' := funext fun h => propext (hw h)
  have hfront : front = front' := funext fun h => propext (hf h)
  subst hwalks
  subst hfront
  have hhit : ∀ h, Hits ⟨s, cs, keeping⟩ t walks front h ↔ Hits ⟨s, ds, keeping⟩ t walks front h :=
    fun h => ⟨.alike a, .alike a.symm⟩
  exact ⟨hhit, fun x => and_congr_left' (hhit x.object)⟩

/-- Two traces from one table, from the same frontier and with the same clusters, come to the same table
and look at the same number of objects in the same number of waves. The induction is on the waves of the
first. -/
theorem Tracer.Floods.confluent {s : Schema} {cs ds : Clusters} {keeping : Bool}
    {good : Handle → Prop} {wave wave' : List Handle} {t t₁ t₂ : Table}
    {tally tally' tally₁ tally₂ : Tally} (a : cs.Alike ds)
    (run : (Tracer.mk s cs keeping).Floods wave t tally t₁ tally₁)
    (run' : (Tracer.mk s ds keeping).Floods wave' t tally' t₂ tally₂) (hperm : wave.Perm wave')
    (hscanned : tally'.scanned = tally.scanned) (hwaves : tally'.waves = tally.waves)
    (p : Tracing s cs keeping good (· ∈ wave) (· ∈ tally.weak) t)
    (p' : Tracing s ds keeping good (· ∈ wave') (· ∈ tally'.weak) t) (hpaired : t.Paired) :
    t₂ = t₁ ∧ tally₂.scanned = tally₁.scanned ∧ tally₂.waves = tally₁.waves := by
  induction run generalizing wave' tally' with
  | done =>
    rw [List.nil_perm.mp hperm] at run'
    cases run' with
    | done => exact ⟨rfl, hscanned, hwaves⟩
    | next some => exact absurd rfl some
  | @next wave next n t t₁ _ tally _ outputs some takes order _ ih =>
    cases run' with
    | done => exact absurd (List.perm_nil.mp hperm) some
    | @next _ next' n' _ t₂ _ _ _ outputs' some' takes' order' others' =>
      have hself : ∀ {keys : List Handle} {ks : Clusters}, ∀ h ∈ keys,
          Hits ⟨s, ks, keeping⟩ t (· ∈ keys) (· ∈ keys) h ∧ h ∈ keys :=
        fun h hh => ⟨.front hh, hh⟩
      have b := takes.waved order p (fun h hh => (p.queued h hh).1) (.refl t) (.refl t) hself p
      have b' := takes'.waved order' p' (fun h hh => (p'.queued h hh).1) (.refl t) (.refl t) hself p'
      obtain ⟨hhit, hcut⟩ := Tracer.scope_alike (s := s) (t := t) a
        (fun h => hperm.mem_iff) (fun h => hperm.mem_iff)
      have htable : t₂ = t₁ :=
        (b.exactly p hpaired).unique p.orderly.tidy (b'.exactly p' hpaired) hhit hcut
      subst htable
      have hnext : next.Perm next' :=
        (List.perm_ext_iff_of_nodup b.distinct b'.distinct).mpr fun g => by
          rw [b.next, b'.next]
      refine ih others' hnext ?_ ?_ b.tracing b'.tracing (b.struck.paired hpaired)
      · rw [b.scanned, b'.scanned, hscanned, hperm.length_eq]
      · rw [b.waves, b'.waves, hwaves]

namespace Cluster

variable {s : Schema} {t : Table} {c c' d d' : Cluster} {gone gone' : Handle → Prop}

theorem Sheds.of_alike (h : c.Sheds s t gone d) (a : c.Alike c') : c'.Sheds s t gone d := by
  have hleads : ∀ g, c'.Leads s t g ↔ c.Leads s t g := fun g =>
    Leads.congr a.objects (fun _ _ => Iff.rfl) (fun _ => Iff.rfl) fun _ => rfl
  refine ⟨h.root.trans a.root.symm, h.members.trans a.members.symm, fun r => ?_, fun g => ?_⟩
  · simp only [h.referenced, a.mem_referenced, hleads]
  · simp only [h.mutables, a.mem_mutables, a.mem_referenced, hleads]

/-- What is left of one cluster is alike. -/
theorem Sheds.unique (h : c.Sheds s t gone d) (h' : c.Sheds s t gone d')
    (hd : d.referenced.Nodup ∧ d.mutables.Nodup) (hd' : d'.referenced.Nodup ∧ d'.mutables.Nodup) :
    d.Alike d' := by
  refine ⟨h'.root.trans h.root.symm, h'.members.trans h.members.symm,
    (List.perm_ext_iff_of_nodup hd.1 hd'.1).mpr fun r => ?_,
    (List.perm_ext_iff_of_nodup hd.2 hd'.2).mpr fun g => ?_⟩
  · rw [h.referenced, h'.referenced]
  · rw [h.mutables, h'.mutables]

end Cluster

namespace Clusters

variable {s : Schema} {keeping : Bool} {good : Handle → Prop} {weak weak' : Site → Prop} {t : Table}
  {cs ds : Clusters} {gone gone' : List Handle} {found found' : List Handle × Table × Clusters}

theorem survivors_alike (hd : (cs.list.map (·.root)).Nodup) (a : cs.Alike ds) (r : Handle) :
    ds.survivors t r = cs.survivors t r := by
  have hd' := a.roots.nodup_iff.mp hd
  by_cases hr : ∃ c ∈ cs.list, c.root = r
  · obtain ⟨c, hc, rfl⟩ := hr
    obtain ⟨d, hd₁, hcd⟩ := a.forth c hc
    have hget := get?_of_mem hd' hd₁
    rw [hcd.root] at hget
    rw [survivors, survivors, get?_of_mem hd hc, hget]
    dsimp only
    rw [hcd.members]
  · have hnone : ∀ ks : Clusters, (¬ ∃ c ∈ ks.list, c.root = r) → ks.get? r = none := fun ks hks =>
      get?_eq_none_iff.mpr fun c hc he => hks ⟨c, hc, he⟩
    rw [survivors, survivors, hnone cs hr, hnone ds (mt a.symm.registered hr)]

/-- What is left of some cluster is alike in both. -/
theorem Scattered.forth (he : Enrolled t cs) (a : cs.Alike ds) (hp : gone.Perm gone')
    (b : Scattered s keeping good weak t cs gone found)
    (b' : Scattered s keeping good weak' t ds gone' found') {d : Cluster}
    (hd : d ∈ found.2.2.list) : ∃ d' ∈ found'.2.2.list, d.Alike d' := by
  obtain ⟨c, hc, hcd⟩ := b.clusters d hd
  obtain ⟨c', hc', hcc⟩ := a.forth c hc
  have hleft := b.roots.mem_iff.mp (List.mem_map_of_mem hd)
  rw [List.mem_filter, hcd.root, decide_eq_true_eq] at hleft
  have hleft' : c'.root ∈ found'.2.2.list.map (·.root) := by
    refine b'.roots.mem_iff.mpr (List.mem_filter.mpr ⟨List.mem_map_of_mem hc', ?_⟩)
    rw [decide_eq_true_eq, hcc.root, ← hp.mem_iff]
    exact hleft.2
  obtain ⟨d', hd', hroot⟩ := List.mem_map.mp hleft'
  obtain ⟨e, hemem, hed⟩ := b'.clusters d' hd'
  have hsame : e = c' := eq_of_root (he.alike a).distinct hemem hc' (hed.root.symm.trans hroot)
  rw [hsame] at hed
  have hshed := (hed.of_alike hcc.symm).congr fun r => hp.symm.mem_iff
  exact ⟨d', hd', hcd.unique hshed (b.tracing.orderly.enrolled.nodup d hd).2
    (b'.tracing.orderly.enrolled.nodup d' hd').2⟩

/-- However the dissolving goes, it comes to the same table, to the same survivors and to the same
clusters. -/
theorem Scattered.confluent (ho : Orderly s t cs) (a : cs.Alike ds) (hp : gone.Perm gone')
    (b : Scattered s keeping good weak t cs gone found)
    (b' : Scattered s keeping good weak' t ds gone' found') :
    found'.2.1 = found.2.1 ∧ found.1.Perm found'.1 ∧ found.2.2.Alike found'.2.2 := by
  have he := ho.enrolled
  refine ⟨?_, ?_, ?_, fun d hd => b.forth he a hp b' hd, fun d hd => ?_⟩
  · refine Table.ext_get? (b.table.tidy ho.tidy) (b'.table.tidy ho.tidy)
      (b.frame.symm.trans b'.frame) (b'.table.boundary.trans b.table.boundary.symm) fun h => ?_
    cases hg : t.get? h with
    | none => rw [b.table.gone h hg, b'.table.gone h hg]
    | some o =>
      obtain ⟨p, hget, rfl⟩ := b.table.kept h o hg
      obtain ⟨q, hget', rfl⟩ := b'.table.kept h o hg
      rw [hget, hget', Object.fate_congr fun r => hp.mem_iff]
  · have hsurvivors : ds.survivors t = cs.survivors t :=
      funext fun r => survivors_alike he.distinct a r
    refine b.survivors.trans (.trans ?_ b'.survivors.symm)
    rw [hsurvivors]
    exact hp.flatMap_right _
  · refine b.roots.trans (.trans ?_ b'.roots.symm)
    simp only [← hp.mem_iff]
    exact a.roots.filter _
  · obtain ⟨e, hemem, hde⟩ := b'.forth (he.alike a) a.symm hp.symm b hd
    exact ⟨e, hemem, hde.symm⟩

end Clusters

end TracingHeap

import TracingHeap.Proofs.Mark.Run

namespace TracingHeap

/-- Nothing waits to be looked at, and every cluster has a root that is not flagged. -/
structure Judged (s : Schema) (keeping : Bool) (good : Handle → Prop) (weak : Site → Prop)
    (t : Table) (cs : Clusters) : Prop where
  tracing : Tracing s cs keeping good (fun _ => False) weak t
  roots : ∀ c ∈ cs.list, t.Awake c.root

namespace Judged

variable {s : Schema} {keeping : Bool} {good : Handle → Prop} {weak : Site → Prop} {t : Table}
  {cs : Clusters} {c : Cluster} {g h : Handle}

theorem traced (j : Judged s keeping good weak t cs) (hp : t.isPermanent h = false)
    (hf : t.Free h) : Traced s cs weak t h := by
  rcases j.tracing.traced h hp hf with hg | ht
  · exact hg.elim
  · exact ht

theorem free_root (j : Judged s keeping good weak t cs) (hc : c ∈ cs.list) : t.Free c.root := by
  obtain ⟨o, ho, -, hn⟩ := j.tracing.orderly.enrolled.root c hc
  exact ⟨o, ho, hn, (j.roots c hc).of_get? ho⟩

theorem awake_objects (j : Judged s keeping good weak t cs) (hc : c ∈ cs.list)
    (hm : h ∈ c.objects) : t.Awake h := by
  rcases Cluster.mem_objects.mp hm with he | hm
  · rw [he]
    exact j.roots c hc
  · obtain ⟨o, ho, -, hu⟩ := j.tracing.orderly.enrolled.member c hc h hm
    exact ⟨o, ho, hu⟩

/-- A collectable object that was claimed is not flagged in the end. -/
theorem awake_of_marked (j : Judged s keeping good weak t cs) (hp : t.isPermanent h = false)
    (hm : t.Marked h) : t.Awake h := by
  rcases hm with hm | hf | ⟨o, ho, hn, -⟩
  · rw [hp] at hm
    cases hm
  · exact hf.awake
  · obtain ⟨r, hr⟩ := Option.ne_none_iff_exists'.mp hn
    obtain ⟨c, hc, -, hmem⟩ := j.tracing.orderly.enrolled.listed h o r ho hr
    exact j.awake_objects hc (Cluster.mem_objects.mpr (.inr hmem))

/-- What is not flagged stands alone and was claimed, or has the company of a cluster. -/
theorem cases_of_awake (j : Judged s keeping good weak t cs) (ha : t.Awake h) :
    (t.rootOf h = none ∧ t.Free h) ∨ ∃ c ∈ cs.list, h ∈ c.objects := by
  cases hr : t.rootOf h with
  | none =>
    obtain ⟨o, ho, hu⟩ := ha
    rw [Table.rootOf_eq ho, Option.or_eq_none_iff] at hr
    exact .inl ⟨rfl, o, ho, hr.1, hu⟩
  | some r =>
    obtain ⟨c, hc, -, hm⟩ := j.tracing.orderly.enrolled.cluster_of_rootOf hr
    exact .inr ⟨c, hc, hm⟩

theorem mutables (j : Judged s keeping good weak t cs) (hc : c ∈ cs.list)
    (hp : t.isPermanent c.root = false) (hm : h ∈ c.mutables) : t.Awake h := by
  obtain ⟨hmarked, -⟩ := (j.traced hp (j.free_root hc)).expanded c hc rfl
  obtain ⟨-, hpm⟩ := (j.tracing.orderly.tracked c hc hp).mutables h hm
  exact j.awake_of_marked hpm (hmarked h hm)

/-- A strong reference of a collectable object that is not flagged leads to one that is not. -/
theorem strong (j : Judged s keeping good weak t cs) (ha : t.Awake h)
    (hp : t.isPermanent h = false) (he : Edge s t h .strong g) : t.Awake g := by
  obtain ⟨-, hpool⟩ := j.tracing.linked h .strong g he (.inl hp)
  cases hpg : t.isPermanent g with
  | true => exact hpool hpg
  | false =>
    rcases j.cases_of_awake ha with ⟨hroot, hf⟩ | ⟨c, hc, hm⟩
    · obtain ⟨o, a, ho, hrep, hslot⟩ := he
      have hflag : o.has .clusterRoot = false := by
        rw [Table.rootOf_eq ho, Option.or_eq_none_iff] at hroot
        simpa using hroot.2
      have hseen := (j.traced hp hf).seen o a .strong g ho hflag hrep hslot
      exact j.awake_of_marked hpg hseen.1
    · have hpc := (j.tracing.orderly.enrolled.permanent_objects hc hm).symm.trans hp
      by_cases hin : g ∈ c.objects
      · exact j.awake_objects hc hin
      · rcases (j.tracing.orderly.tracked c hc hpc).covered h hm g he hpg hin with
          hmut | ⟨r, hr, hroot⟩
        · exact j.mutables hc hpc hmut
        · obtain ⟨d, hd, -, hgd⟩ := j.tracing.orderly.enrolled.cluster_of_rootOf hroot
          exact j.awake_objects hd hgd

/-- A reference that stays in an object outside clusters leads to nothing that was killed, unless it
leads into the pool. -/
theorem tenable (j : Judged s keeping good weak t cs) (ha : t.Awake h)
    (hp : t.isPermanent h = false) (hroot : t.rootOf h = none) {k : Strength}
    (he : Edge s t h k g) : t.Tenable g := by
  obtain ⟨o, a, ho, hrep, hslot⟩ := he
  rw [Table.rootOf_eq ho, Option.or_eq_none_iff] at hroot
  have hf : t.Free h := ⟨o, ho, hroot.1, ha.of_get? ho⟩
  have hflag : o.has .clusterRoot = false := by simpa using hroot.2
  exact ((j.traced hp hf).seen o a k g ho hflag hrep hslot).2

/-- A collectable object that is not flagged lies in every closed set that holds the seeds. -/
theorem within (j : Judged s keeping good weak t cs) (ha : t.Awake h)
    (hp : t.isPermanent h = false) : good h := by
  rcases j.cases_of_awake ha with ⟨-, hf⟩ | ⟨c, hc, hm⟩
  · exact j.tracing.within h hp hf.marked
  · have hpc := (j.tracing.orderly.enrolled.permanent_objects hc hm).symm.trans hp
    have hroot := j.tracing.within c.root hpc (j.free_root hc).marked
    exact j.tracing.closed.peers c hc hpc c.root (Cluster.mem_objects.mpr (.inl rfl)) hroot h hm

end Judged

structure Crumbling (s : Schema) (keeping : Bool) (good : Handle → Prop) (weak : Site → Prop)
    (t₀ : Table) (cs₀ : Clusters) (left : List Handle) (found : Table × Clusters) : Prop where
  tracing : Tracing s found.2 keeping good (fun _ => False) weak found.1
  outlasts : t₀.Outlasts s found.1
  marked : ∀ h, t₀.Marked h → found.1.Marked h
  distinct : left.Nodup
  dead : ∀ r ∈ left, ∃ c ∈ found.2.list, c.root = r ∧ found.1.isUnreachable r = true
  outlived : ∀ c ∈ found.2.list, Clusters.outlived found.1 c = false
  roots : ∀ c ∈ found.2.list, t₀.Awake c.root ∧ found.1.Awake c.root ∨ c.root ∈ left
  stays : ∀ c ∈ cs₀.list, t₀.isPermanent c.root = false → t₀.Awake c.root →
    c ∈ found.2.list ∧ found.1.Awake c.root
  company : ∀ c ∈ cs₀.list, ∀ h ∈ c.objects, found.1.Awake h →
    ∃ d ∈ found.2.list, d.root = c.root ∧ h ∈ d.objects

section

variable {s : Schema} {keeping : Bool} {good : Handle → Prop} {weak : Site → Prop} {t t₀ : Table}
  {cs cs₀ : Clusters} {left : List Handle} {found : Table × Clusters}

/-- Where no member was referenced from outside, a dissolved cluster leaves nothing unflagged. -/
theorem not_mem_of_awake_disband {c : Cluster} {h : Handle} (ho : Orderly s t cs)
    (hc : c ∈ cs.list) (hu : t.isUnreachable c.root = true)
    (hnone : ∀ h ∈ c.members, t.has h .reachableInCluster = false)
    (ha : (c.disband t).Awake h) : h ∉ c.objects := by
  intro hm
  obtain ⟨o, hget, hu'⟩ := ha
  have hn : o.owner = none := by
    have hroot := rootOf_disband ho hc h
    rw [if_pos hm, Table.rootOf_eq hget, Option.or_eq_none_iff] at hroot
    exact hroot.1
  rcases free_of_disband ho hc hu ⟨o, hget, hn, hu'⟩ with hf | ⟨hmem, hr⟩
  · exact not_mem_of_free ho.enrolled hc hu hf hm
  · rw [hnone h hmem] at hr
    cases hr

namespace Crumbling

section

variable {c d : Cluster} {cs' : Clusters} {h r : Handle}
  (b : Crumbling s keeping good weak t₀ cs₀ (c.root :: left) (t, cs)) (hc : c ∈ cs.list)
  (hu : t.isUnreachable c.root = true)
include b hc hu

/-- No member of a cluster that is still to come was referenced from outside. -/
theorem not_reached (hm : h ∈ c.members) : t.has h .reachableInCluster = false := by
  cases hr : t.has h .reachableInCluster with
  | false => rfl
  | true =>
    have hout := outlived_iff.mpr ⟨hu, h, hm, hr⟩
    rw [b.outlived c hc] at hout
    cases hout

variable (hb : Clusters.Becomes (fun d d' => d.Refreshed s (c.disband t) c.root d')
  (cs.erase c.root) cs')
include hb

omit hu in
theorem dead_disband (hr : r ∈ left) :
    ∃ d ∈ cs'.list, d.root = r ∧ (c.disband t).isUnreachable r = true := by
  have ho := b.tracing.orderly
  obtain ⟨d, hd, hdr, hdu⟩ := b.dead r (List.mem_cons_of_mem _ hr)
  dsimp only at hd hdu
  subst hdr
  have hne : d.root ≠ c.root := fun he => (List.nodup_cons.mp b.distinct).1 (he ▸ hr)
  obtain ⟨d', hd', -, hroot⟩ := hb.forth_erase hd hne
  refine ⟨d', hd', hroot, ?_⟩
  have hsame := get?_disband_of_not_mem ho hc (objects_disjoint ho.enrolled hc hd hne
    (Cluster.mem_objects.mpr (.inl rfl)))
  simpa only [Table.isUnreachable, Table.has, hsame] using hdu

theorem roots_disband (hd' : d ∈ cs'.list) :
    t₀.Awake d.root ∧ (c.disband t).Awake d.root ∨ d.root ∈ left := by
  obtain ⟨e, he, hne, -, hroot⟩ := hb.back_erase hd'
  rw [hroot]
  rcases b.roots e he with ⟨hold, ha⟩ | hl
  · exact .inl ⟨hold, awake_disband_root b.tracing.orderly hc hu ⟨e, he, rfl⟩ ha⟩
  · rcases List.mem_cons.mp hl with heq | hl
    · exact absurd heq hne
    · exact .inr hl

/-- The cluster of a root that was claimed is not refreshed. -/
theorem stays_disband (hd : d ∈ cs₀.list) (hp : t₀.isPermanent d.root = false)
    (ha : t₀.Awake d.root) : d ∈ cs'.list ∧ (c.disband t).Awake d.root := by
  have ho := b.tracing.orderly
  obtain ⟨hin, hawake⟩ := b.stays d hd hp ha
  dsimp only at hin hawake
  have hne : d.root ≠ c.root := by
    intro he
    rw [← he, hawake.isUnreachable] at hu
    cases hu
  obtain ⟨d', hd', hR, -⟩ := hb.forth_erase hin hne
  obtain ⟨o, hget, -, hn⟩ := ho.enrolled.root d hin
  have hp' := (b.outlasts.isPermanent d.root).trans hp
  have htraced : Traced s cs weak t d.root := by
    rcases b.tracing.traced d.root hp' ⟨o, hget, hn, hawake.of_get? hget⟩ with hg | ht
    · exact hg.elim
    · exact ht
  rw [refreshed_of_traced ho hc hu htraced hin rfl hR] at hd'
  exact ⟨hd', awake_disband_root ho hc hu ⟨d, hin, rfl⟩ hawake⟩

theorem company_disband (hd : d ∈ cs₀.list) (hh : h ∈ d.objects) (ha : (c.disband t).Awake h) :
    ∃ e ∈ cs'.list, e.root = d.root ∧ h ∈ e.objects := by
  have ho := b.tracing.orderly
  have hn := not_mem_of_awake_disband ho hc hu (fun _ => b.not_reached hc hu) ha
  obtain ⟨o, hget, hu'⟩ := ha
  rw [get?_disband_of_not_mem ho hc hn] at hget
  obtain ⟨e, he, heroot, hhe⟩ := b.company d hd h hh ⟨o, hget, hu'⟩
  have hne : e.root ≠ c.root := by
    intro heq
    rw [Clusters.eq_of_root ho.enrolled.distinct he hc heq] at hhe
    exact hn hhe
  obtain ⟨e', he', hR, hroot⟩ := hb.forth_erase he hne
  exact ⟨e', he', hroot.trans heroot, hR.objects ▸ hhe⟩

end

theorem step {r : Handle} (b : Crumbling s keeping good weak t₀ cs₀ (r :: left) found) :
    Yields (do return (← found.2.dissolve s found.1 r).2)
      (Crumbling s keeping good weak t₀ cs₀ left) := by
  obtain ⟨t, cs⟩ := found
  obtain ⟨c, hc, hroot, hu⟩ := b.dead r (List.mem_cons_self ..)
  dsimp only at hc hu
  subst hroot
  have ho := b.tracing.orderly
  apply (b.tracing.dissolve_spec hc hu fun h hg => hg.elim).bind
  intro dissolved _ hd
  obtain ⟨c?, t', cs'⟩ := dissolved
  obtain ⟨-, htab, hb, htracing⟩ := hd
  dsimp only at htab hb htracing
  subst htab
  refine ⟨htracing.congr fun h => ⟨fun hg => ?_, fun hg => hg.elim⟩,
    b.outlasts.trans (b.tracing.disband_outlasts hc hu),
    fun h hm => marked_disband ho hc hu (b.marked h hm), (List.nodup_cons.mp b.distinct).2,
    fun r' hr' => b.dead_disband hc hb hr', fun d' hd' => ?_,
    fun d' hd' => b.roots_disband hc hu hb hd',
    fun d hd hp ha => b.stays_disband hc hu hb hd hp ha,
    fun d hd h hh ha => b.company_disband hc hu hb hd hh ha⟩
  · rcases hg with hg | ⟨hm, hr⟩
    · exact hg
    · rw [b.not_reached hc hu hm] at hr
      cases hr
  · obtain ⟨d, hd, hne, hR, hroot⟩ := hb.back_erase hd'
    rw [outlived_disband ho hc hd hne hroot hR.members]
    exact b.outlived d hd

end Crumbling

/-- Before the dissolving, the clusters of all dead roots are still to come. -/
theorem Crumbling.start (p : Tracing s cs keeping good (fun _ => False) weak t)
    (hout : ∀ c ∈ cs.list, Clusters.outlived t c = false) :
    Crumbling s keeping good weak t cs ((cs.list.filter fun c => t.isUnreachable c.root).map (·.root))
      (t, cs) := by
  refine ⟨p, .refl t, fun _ h => h, p.orderly.enrolled.distinct.sublist
    (List.filter_sublist.map _), fun r hr => ?_, hout, fun c hc => ?_,
    fun c hc _ ha => ⟨hc, ha⟩, fun c hc h hh _ => ⟨c, hc, rfl, hh⟩⟩
  · obtain ⟨c, hc, hroot⟩ := List.mem_map.mp hr
    obtain ⟨hc, hu⟩ := List.mem_filter.mp hc
    exact ⟨c, hc, hroot, hroot ▸ hu⟩
  · cases hu : t.isUnreachable c.root with
    | true => exact .inr (List.mem_map_of_mem (List.mem_filter.mpr ⟨hc, hu⟩))
    | false =>
      obtain ⟨o, ho, -⟩ := p.orderly.enrolled.root c hc
      rw [Table.isUnreachable_of_get? ho] at hu
      exact .inl ⟨⟨o, ho, hu⟩, o, ho, hu⟩

/-- Dissolving the clusters of dead roots is the verdict. The clusters of roots that were claimed
stay as they are. -/
theorem dissolveUnreachable_spec (p : Tracing s cs keeping good (fun _ => False) weak t)
    (hout : ∀ c ∈ cs.list, Clusters.outlived t c = false) :
    Yields (cs.dissolveUnreachable s t) fun found =>
      Judged s keeping good weak found.2.1 found.2.2 ∧ t.Outlasts s found.2.1 ∧
      (∀ h, t.Marked h → found.2.1.Marked h) ∧
      ∀ c ∈ cs.list, t.isPermanent c.root = false → ∀ h ∈ c.objects, found.2.1.Awake h →
        found.2.1.Awake c.root ∧ c ∈ found.2.2.list := by
  have hfold := Ends.foldlM
    (f := fun (found : Table × Clusters) r => do return (← found.2.dissolve s found.1 r).2)
    (fun left => Crumbling s keeping good weak t cs left) (fun r left found b => b.step)
    (Crumbling.start p hout)
  unfold Clusters.dissolveUnreachable
  apply Ends.bind hfold
  intro found _ b
  have hroots : ∀ c ∈ found.2.list, t.Awake c.root ∧ found.1.Awake c.root := by
    intro c hc
    rcases b.roots c hc with ha | hl
    · exact ha
    · cases hl
  refine ⟨⟨b.tracing, fun c hc => (hroots c hc).2⟩, b.outlasts, b.marked, ?_⟩
  intro c hc hp h hh ha
  obtain ⟨d, hd, hroot, -⟩ := b.company c hc h hh ha
  obtain ⟨hold, hawake⟩ := hroots d hd
  rw [hroot] at hold hawake
  exact ⟨hawake, (b.stays c hc hp hold).1⟩

end

end TracingHeap

import TracingHeap.Proofs.Mark.Dissolution

namespace TracingHeap

namespace Object

structure Outlasts (s : Schema) (dead : Handle → Prop) (o o' : Object) : Prop
    extends o.Thins s dead o' where
  flag : ∀ f, f ≠ .unreachable → f ≠ .reachableInCluster → f ≠ .noStrongReference →
    f ≠ .clusterRoot → o'.has f = o.has f

end Object

namespace Table

def Outlasts (s : Schema) (t t' : Table) : Prop :=
  Evolves (fun h o o' => o.Outlasts s (fun g => t.has g .pendingKill = true) o' ∧
    (t.isPermanent h = true → o' = o)) t t'

namespace Outlasts

variable {s : Schema} {t t' t'' : Table} {h : Handle} {o o' : Object}

theorem kept (a : t.Outlasts s t') (ho : t.get? h = some o) : ∃ o', t'.get? h = some o' ∧
    o.Outlasts s (fun g => t.has g .pendingKill = true) o' := by
  obtain ⟨o', ho', hr, -⟩ := Evolves.kept a h o ho
  exact ⟨o', ho', hr⟩

theorem refl (t : Table) : t.Outlasts s t :=
  Evolves.refl fun _ o _ => ⟨⟨.refl o, fun _ _ _ _ _ => rfl⟩, fun _ => rfl⟩

theorem has_pendingKill (a : t.Outlasts s t') (g : Handle) :
    t'.has g .pendingKill = t.has g .pendingKill :=
  Evolves.has_eq a
    (fun _ _ _ _ hr => hr.1.flag _ (by decide) (by decide) (by decide) (by decide)) g

theorem trans (a : t.Outlasts s t') (b : t'.Outlasts s t'') : t.Outlasts s t'' := by
  refine Evolves.trans a b fun h o p q _ hp hq => ⟨⟨hp.1.toThins.trans hq.1.toThins ?_, ?_⟩, ?_⟩
  · intro g hg
    rwa [a.has_pendingKill] at hg
  · intro f h1 h2 h3 h4
    exact (hq.1.flag f h1 h2 h3 h4).trans (hp.1.flag f h1 h2 h3 h4)
  · intro hperm
    rw [hq.2 ((a.isPermanent h).trans hperm), hp.2 hperm]

end Outlasts

theorem Advances.outlasts {s : Schema} {t t' : Table} (a : t.Advances s t') : t.Outlasts s t' :=
  Evolves.mono a fun _ _ _ _ hr => ⟨⟨hr.1.toThins, fun f h1 h2 h3 _ => hr.1.flag f h1 h2 h3⟩, hr.2⟩

end Table

section

variable {s : Schema} {t : Table} {cs cs' : Clusters} {c : Cluster} {keeping : Bool}
  {good gray : Handle → Prop} {weak : Site → Prop} {h : Handle} {o : Object}

/-- A dead root lies outside the permanent pool, and so does its cluster. -/
theorem Tracing.collectable_of_dead (p : Tracing s cs keeping good gray weak t) (hc : c ∈ cs.list)
    (hu : t.isUnreachable c.root = true) (hm : h ∈ c.objects) : t.isPermanent h = false := by
  rw [p.orderly.enrolled.permanent_objects hc hm]
  cases hp : t.isPermanent c.root with
  | false => rfl
  | true =>
    rw [(p.pool c hc hp).isUnreachable] at hu
    cases hu

/-- A claimed object is not one of a dead cluster. -/
theorem not_mem_of_free (he : Enrolled t cs) (hc : c ∈ cs.list)
    (hu : t.isUnreachable c.root = true) (hf : t.Free h) : h ∉ c.objects := by
  intro hm
  obtain ⟨o, ho, hn, hu'⟩ := hf
  rcases Cluster.mem_objects.mp hm with rfl | hm
  · rw [Table.isUnreachable_of_get? ho, hu'] at hu
    cases hu
  · obtain ⟨q, hq, hown, -⟩ := he.member c hc h hm
    rw [ho] at hq
    cases hq
    rw [hn] at hown
    cases hown

section

variable (ho : Orderly s t cs) (hc : c ∈ cs.list) (hu : t.isUnreachable c.root = true)
include ho hc hu

theorem free_disband (hf : t.Free h) : (c.disband t).Free h := by
  have hn := not_mem_of_free ho.enrolled hc hu hf
  obtain ⟨o, hg, hown, hu'⟩ := hf
  exact ⟨o, by rw [get?_disband_of_not_mem ho hc hn, hg], hown, hu'⟩

theorem awake_disband_root {r : Handle} (hr : ∃ d ∈ cs.list, d.root = r) (ha : t.Awake r) :
    (c.disband t).Awake r := by
  obtain ⟨d, hd, rfl⟩ := hr
  obtain ⟨o, hg, -, hn⟩ := ho.enrolled.root d hd
  exact (free_disband ho hc hu ⟨o, hg, hn, ha.of_get? hg⟩).awake

omit hu in
/-- A member referenced from outside survives its cluster. -/
theorem free_released (hm : h ∈ c.members) (hr : t.has h .reachableInCluster = true) :
    (c.disband t).Free h := by
  obtain ⟨o, hg, -, hu'⟩ := ho.enrolled.member c hc h hm
  rw [Table.has_of_get? hg] at hr
  exact ⟨o.release, get?_disband_member ho hc hm hg, o.owner_release,
    by rw [o.isUnreachable_release hu', hr]; rfl⟩

/-- What was marked stays marked. -/
theorem marked_disband (hm : t.Marked h) : (c.disband t).Marked h := by
  rcases hm with hp | hf | ⟨o, hg, hn, hr⟩
  · exact .inl (by rw [isPermanent_disband]; exact hp)
  · exact (free_disband ho hc hu hf).marked
  · by_cases hmem : h ∈ c.members
    · exact (free_released ho hc hmem (by rw [Table.has_of_get? hg]; exact hr)).marked
    · refine .inr (.inr ⟨o, ?_, hn, hr⟩)
      rw [get?_disband_of_not_mem ho hc, hg]
      intro hx
      rcases Cluster.mem_objects.mp hx with rfl | hx
      · obtain ⟨q, hq, -, hqn⟩ := ho.enrolled.root c hc
        rw [hg] at hq
        cases hq
        exact hn hqn
      · exact hmem hx

omit hu in
/-- Dissolving a cluster kills nothing. -/
theorem has_pendingKill_disband (g : Handle) :
    (c.disband t).has g .pendingKill = t.has g .pendingKill := by
  have hev := c.disband_evolves (ho.enrolled.nodup c hc).1 (ho.enrolled.root_not_member hc hc) t
  refine hev.has_eq (fun h o p _ he => ?_) g
  rw [he, Cluster.has_fate (by decide) (by decide) (by decide)]

omit hu in
theorem tenable_disband (hten : t.Tenable h) : (c.disband t).Tenable h :=
  hten.imp (fun hp => by rw [isPermanent_disband]; exact hp)
    fun hk => (has_pendingKill_disband ho hc h).trans hk

/-- Where a claimed object, after the cluster was dissolved, comes from. -/
theorem free_of_disband (hf : (c.disband t).Free h) :
    t.Free h ∨ h ∈ c.members ∧ t.has h .reachableInCluster = true := by
  by_cases hm : h ∈ c.objects
  · obtain ⟨o', ho', -, hu'⟩ := hf
    rcases Cluster.mem_objects.mp hm with rfl | hmem
    · obtain ⟨o, hg, -⟩ := ho.enrolled.root c hc
      rw [get?_disband_root ho hc hg] at ho'
      cases ho'
      rw [Table.isUnreachable_of_get? hg] at hu
      simp only [Object.isUnreachable, Object.disband, Object.has_clear] at hu hu'
      rw [hu] at hu'
      cases hu'
    · obtain ⟨o, hg, -, ha⟩ := ho.enrolled.member c hc h hmem
      rw [get?_disband_member ho hc hmem hg] at ho'
      cases ho'
      rw [o.isUnreachable_release ha, Bool.not_eq_false'] at hu'
      exact .inr ⟨hmem, by rw [Table.has_of_get? hg]; exact hu'⟩
  · obtain ⟨o', ho', hn, hu'⟩ := hf
    rw [get?_disband_of_not_mem ho hc hm] at ho'
    exact .inl ⟨o', ho', hn, hu'⟩

/-- A claimed root references no dead cluster, so its cluster is not refreshed. -/
theorem refreshed_of_traced (ht : Traced s cs weak t h) {d d' : Cluster} (hd : d ∈ cs.list)
    (hroot : d.root = h) (hR : d.Refreshed s (c.disband t) c.root d') : d' = d := by
  unfold Cluster.Refreshed at hR
  rwa [if_neg] at hR
  intro hgone
  exact not_mem_of_free ho.enrolled hc hu ((ht.expanded d hd hroot).2 c.root hgone)
    (Cluster.mem_objects.mpr (.inl rfl))

/-- What was done with stays done with. -/
theorem traced_disband (ht : Traced s cs weak t h) (hf : t.Free h)
    (hb : Clusters.Becomes (fun d d' => d.Refreshed s (c.disband t) c.root d') (cs.erase c.root)
      cs') : Traced s cs' weak (c.disband t) h := by
  have hn := not_mem_of_free ho.enrolled hc hu hf
  constructor
  · intro o a k g hg hroot hrep hslot
    rw [get?_disband_of_not_mem ho hc hn] at hg
    obtain ⟨hfollowed, hten⟩ := ht.seen o a k g hg hroot hrep hslot
    refine ⟨?_, tenable_disband ho hc hten⟩
    cases k with
    | strong => exact marked_disband ho hc hu hfollowed
    | weak =>
      rcases hfollowed with hp | hf | hw
      · exact .inl (by rw [isPermanent_disband]; exact hp)
      · exact .inr (.inl (free_disband ho hc hu hf))
      · exact .inr (.inr hw)
  · intro d' hd' hroot'
    obtain ⟨d, hd, -, hR, hroot⟩ := hb.back_erase hd'
    have hdr : d.root = h := hroot.symm.trans hroot'
    rw [refreshed_of_traced ho hc hu ht hd hdr hR]
    obtain ⟨hm, hr⟩ := ht.expanded d hd hdr
    exact ⟨fun m hmem => marked_disband ho hc hu (hm m hmem),
      fun r hmem => free_disband ho hc hu (hr r hmem)⟩

end

namespace Closed

section

variable (hcl : Closed s t cs good) (ho : Orderly s t cs) (hc : c ∈ cs.list)
include hcl ho hc

/-- With the root of a cluster, everything is good that its objects reference after another cluster was
dissolved. -/
theorem target_of_disband {d : Cluster} {g : Handle} (hd : d ∈ cs.list)
    (hp : t.isPermanent d.root = false) (hg : good d.root) (hh : h ∈ d.objects)
    (hedge : Edge s (c.disband t) h .strong g) (hpg : t.isPermanent g = false) : good g := by
  have he := ho.enrolled
  have hgh := hcl.peers d hd hp d.root (Cluster.mem_objects.mpr (.inl rfl)) hg h hh
  have hph : t.isPermanent h = false := (he.permanent_objects hd hh).trans hp
  refine hcl.strong h g hgh hph (edge_of_disband ho hc hedge) hpg (.inr ?_)
  rw [he.rootOf_of_mem hd hh]
  simp

theorem strong_disband {g : Handle} (hg : good h) (hp : t.isPermanent h = false)
    (hedge : Edge s (c.disband t) h .strong g) (hpg : t.isPermanent g = false)
    (hk : (c.disband t).has g .pendingKill = false ∨ (c.disband t).rootOf h ≠ none) : good g := by
  refine hcl.strong h g hg hp (edge_of_disband ho hc hedge) hpg (hk.imp ?_ ?_)
  · intro hk
    rwa [has_pendingKill_disband ho hc] at hk
  · intro hroot hnone
    rw [rootOf_disband ho hc, hnone] at hroot
    simp at hroot

/-- The good set stays closed: what a refreshed cluster notes is kept by one of its objects. -/
theorem dissolve
    (hb : Clusters.Becomes (fun d d' => d.Refreshed s (c.disband t) c.root d') (cs.erase c.root)
      cs') : Closed s (c.disband t) cs' good := by
  have he := ho.enrolled
  have htidy := (disband_thins ho hc).tidy ho.tidy
  have he' := ho.enrolled_disband hc hb
  refine ⟨?_, ?_, ?_, ?_⟩
  · intro h g hg hp hedge hpg hk
    rw [isPermanent_disband] at hp hpg
    exact hcl.strong_disband ho hc hg hp hedge hpg hk
  · intro d' hd' hp h hh hg g hh'
    obtain ⟨d, hd, -, hR, hroot⟩ := hb.back_erase hd'
    rw [isPermanent_disband, hroot] at hp
    rw [hR.objects] at hh hh'
    exact hcl.peers d hd hp h hh hg g hh'
  · intro d' hd' hp hg m hm hpm
    obtain ⟨d, hd, -, hR, hroot⟩ := hb.back_erase hd'
    rw [isPermanent_disband] at hp hpm
    rw [hroot] at hp hg
    unfold Cluster.Refreshed at hR
    split at hR
    · rcases (hR.mem_mutables m).mp hm with hm | ⟨h, hh, g, hedge, hout⟩
      · exact hcl.mutables d hd hp hg m hm hpm
      · obtain ⟨rfl, -, -, -⟩ := Cluster.eq_of_outside htidy hout
        exact hcl.target_of_disband ho hc hd hp hg hh hedge hpm
    · subst hR
      exact hcl.mutables _ hd hp hg m hm hpm
  · intro d' hd' hp hg r hr hpr
    obtain ⟨d, hd, -, hR, hroot⟩ := hb.back_erase hd'
    rw [isPermanent_disband] at hp hpr
    rw [hroot] at hp hg
    unfold Cluster.Refreshed at hR
    split at hR
    · rename_i hgone
      rcases (hR.mem_referenced r).mp hr with hr | ⟨h, hh, g, hedge, hout⟩
      · obtain ⟨hr, -⟩ := ((swapErase_spec (he.nodup d hd).2.1 hgone).2 r).mp hr
        exact hcl.referenced d hd hp hg r hr hpr
      · obtain ⟨hgr, hpg, -⟩ := Cluster.registered_of_outside htidy he' hout
        rw [isPermanent_disband] at hpg
        have hgg := hcl.target_of_disband ho hc hd hp hg hh hedge hpg
        rw [rootOf_disband ho hc] at hgr
        split at hgr
        · cases hgr
        · obtain ⟨e, hemem, rfl, hge⟩ := he.cluster_of_rootOf hgr
          exact hcl.peers e hemem hpr g hge hgg e.root (Cluster.mem_objects.mpr (.inl rfl))
    · subst hR
      exact hcl.referenced _ hd hp hg r hr hpr

end

end Closed

namespace Tracing

section

variable (p : Tracing s cs keeping good gray weak t) (hc : c ∈ cs.list)
  (hu : t.isUnreachable c.root = true)
include p hc hu

theorem not_mem_of_permanent (hp : t.isPermanent h = true) : h ∉ c.objects := by
  intro hm
  rw [p.collectable_of_dead hc hu hm] at hp
  cases hp

theorem awake_disband_permanent (hp : t.isPermanent h = true) :
    (c.disband t).Awake h ↔ t.Awake h := by
  unfold Table.Awake
  rw [get?_disband_of_not_mem p.orderly hc (p.not_mem_of_permanent hc hu hp)]

theorem linked_disband {k : Strength} {g : Handle} (he : Edge s (c.disband t) h k g)
    (hheed : (c.disband t).isPermanent h = false ∨ k = .weak ∧ (c.disband t).Awake h) :
    (∃ o, (c.disband t).get? g = some o) ∧
      ((c.disband t).isPermanent g = true → (c.disband t).Awake g) := by
  rw [isPermanent_disband] at hheed ⊢
  have hen := p.orderly.enrolled
  have hheed' : t.isPermanent h = false ∨ k = .weak ∧ t.Awake h := by
    cases hp : t.isPermanent h with
    | false => exact .inl rfl
    | true =>
      rcases hheed with hh | ⟨hk, ha⟩
      · rw [hp] at hh
        cases hh
      · exact .inr ⟨hk, (p.awake_disband_permanent hc hu hp).mp ha⟩
  obtain ⟨⟨o, hg⟩, ha⟩ := p.linked h k g (edge_of_disband p.orderly hc he) hheed'
  have hev := c.disband_evolves (hen.nodup c hc).1 (hen.root_not_member hc hc) t
  obtain ⟨o', ho', -⟩ := hev.kept g o hg
  exact ⟨⟨o', ho'⟩, fun hp => (p.awake_disband_permanent hc hu hp).mpr (ha hp)⟩

/-- A member referenced from outside is good, though its root is dead. -/
theorem released_good (hm : h ∈ c.members) (hr : t.has h .reachableInCluster = true) : good h := by
  have hp := p.collectable_of_dead hc hu (Cluster.mem_objects.mpr (.inr hm))
  obtain ⟨o, hget, hown, -⟩ := p.orderly.enrolled.member c hc h hm
  rw [Table.has_of_get? hget] at hr
  exact p.within h hp (.inr (.inr ⟨o, hget, by simp [hown], hr⟩))

theorem within_disband (hp : (c.disband t).isPermanent h = false)
    (hm : (c.disband t).Marked h) : good h := by
  rw [isPermanent_disband] at hp
  have hen := p.orderly.enrolled
  have hev := c.disband_evolves (hen.nodup c hc).1 (hen.root_not_member hc hc) t
  rcases hm with hm | hf | ⟨o', ho', hn, hr⟩
  · rw [isPermanent_disband, hp] at hm
    cases hm
  · rcases free_of_disband p.orderly hc hu hf with hf | ⟨hm, hr⟩
    · exact p.within h hp hf.marked
    · exact p.released_good hc hu hm hr
  · obtain ⟨o, hget, rfl⟩ := hev.back ho'
    rw [Cluster.has_fate (by decide) (by decide) (by decide)] at hr
    refine p.within h hp (.inr (.inr ⟨o, hget, fun hn' => hn ?_, hr⟩))
    rw [Cluster.owner_fate fun _ => hn', hn']
    simp

/-- Dissolving a dead cluster keeps the invariant of the trace. The members referenced from outside
wait to be looked at. -/
theorem dissolve (hgray : ∀ h, gray h → t.Free h)
    (hb : Clusters.Becomes (fun d d' => d.Refreshed s (c.disband t) c.root d') (cs.erase c.root)
      cs') :
    Tracing s cs' keeping good
      (fun h => gray h ∨ h ∈ c.members ∧ t.has h .reachableInCluster = true) weak (c.disband t) := by
  have ho := p.orderly
  have he := ho.enrolled
  have hlive : ∀ d ∈ cs.list, t.isPermanent d.root = false → ∀ h ∈ d.objects, ∀ g,
      Edge s t h .strong g → ∃ o, t.get? g = some o := by
    intro d hd hp h hh g hedge
    exact (p.linked h .strong g hedge (.inl ((he.permanent_objects hd hh).trans hp))).1
  refine ⟨ho.dissolve hc hlive hb, p.closed.dissolve ho hc hb,
    fun h k g hedge hheed => p.linked_disband hc hu hedge hheed, ?_, ?_, ?_,
    fun h hp hm => p.within_disband hc hu hp hm, ?_⟩
  · intro d' hd' hp
    obtain ⟨d, hd, -, -, hroot⟩ := hb.back_erase hd'
    rw [isPermanent_disband, hroot] at hp
    rw [hroot, p.awake_disband_permanent hc hu hp]
    exact p.pool d hd hp
  · rintro h (hg | ⟨hm, hr⟩)
    · obtain ⟨hp, hgood, -⟩ := p.queued h hg
      obtain ⟨o, hget, -, hu'⟩ := free_disband ho hc hu (hgray h hg)
      exact ⟨by rw [isPermanent_disband]; exact hp, hgood, o, hget, fun _ => hu'⟩
    · have hp := p.collectable_of_dead hc hu (Cluster.mem_objects.mpr (.inr hm))
      obtain ⟨o', hget', -, hu'⟩ := free_released ho hc hm hr
      exact ⟨by rw [isPermanent_disband]; exact hp, p.released_good hc hu hm hr, o', hget',
        fun _ => hu'⟩
  · intro h hp hf
    rw [isPermanent_disband] at hp
    rcases free_of_disband ho hc hu hf with hf | hm
    · rcases p.traced h hp hf with hg | ht
      · exact .inl (.inl hg)
      · exact .inr (traced_disband ho hc hu ht hf hb)
    · exact .inl (.inr hm)
  · intro hk h o' r hp ho' hown hr
    rw [isPermanent_disband] at hp
    have hn : h ∉ c.objects := by
      intro hm
      have hroot := rootOf_disband ho hc h
      rw [if_pos hm, Table.rootOf_eq ho', hown] at hroot
      cases hroot
    rw [get?_disband_of_not_mem ho hc hn] at ho'
    obtain ⟨d, hd, hroot, -⟩ := he.listed h o' r ho' hown
    exact awake_disband_root ho hc hu ⟨d, hd, hroot⟩ (p.held hk h o' r hp ho' hown hr)

/-- Dissolving a dead cluster is a step of the mark. -/
theorem disband_outlasts : t.Outlasts s (c.disband t) := by
  have he := p.orderly.enrolled
  refine (c.disband_evolves (he.nodup c hc).1 (he.root_not_member hc hc) t).mono ?_
  rintro h o _ - rfl
  refine ⟨⟨c.thins_fate h o, fun f h1 _ h3 h4 => Cluster.has_fate h1 h4 h3⟩, fun hp => ?_⟩
  have hn := p.not_mem_of_permanent hc hu hp
  rw [Cluster.mem_objects, not_or] at hn
  rw [Cluster.fate, if_neg hn.1, if_neg hn.2]

end

end Tracing

end

end TracingHeap

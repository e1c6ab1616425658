import TracingHeap.Proofs.Cluster.Dissolution
import TracingHeap.Proofs.Outcome
import TracingHeap.Proofs.Trace.Invariant

namespace TracingHeap

section

variable {s : Schema} {t : Table} {cs cs' : Clusters} {c : Cluster} {h : Handle} {o : Object}

/-- An object outside the dissolved cluster stays as it is. -/
theorem get?_disband_of_not_mem (ho : Orderly s t cs) (hc : c ∈ cs.list) (hn : h ∉ c.objects) :
    (c.disband t).get? h = t.get? h := by
  have ev := c.disband_evolves (ho.enrolled.nodup c hc).1 (ho.enrolled.root_not_member hc hc) t
  rw [Cluster.mem_objects, not_or] at hn
  cases hg : t.get? h with
  | none => exact ev.gone h hg
  | some o =>
    obtain ⟨o', ho', rfl⟩ := ev.kept h o hg
    rw [ho', Cluster.fate, if_neg hn.1, if_neg hn.2]

theorem get?_disband_member (ho : Orderly s t cs) (hc : c ∈ cs.list) (hm : h ∈ c.members)
    (hg : t.get? h = some o) : (c.disband t).get? h = some o.release := by
  have hr := ho.enrolled.root_not_member hc hc
  have ev := c.disband_evolves (ho.enrolled.nodup c hc).1 hr t
  obtain ⟨o', ho', rfl⟩ := ev.kept h o hg
  rw [ho', Cluster.fate, if_neg (fun he : h = c.root => hr (he ▸ hm)), if_pos hm]

theorem get?_disband_root (ho : Orderly s t cs) (hc : c ∈ cs.list)
    (hg : t.get? c.root = some o) : (c.disband t).get? c.root = some o.disband := by
  have ev := c.disband_evolves (ho.enrolled.nodup c hc).1 (ho.enrolled.root_not_member hc hc) t
  obtain ⟨o', ho', rfl⟩ := ev.kept _ o hg
  rw [ho', Cluster.fate, if_pos rfl]

theorem isPermanent_disband (c : Cluster) (t : Table) (h : Handle) :
    (c.disband t).isPermanent h = t.isPermanent h := by
  have hb : (c.disband t).boundary = t.boundary :=
    Table.boundary_foldl_modify Object.release c.members _
  simp [Table.isPermanent, hb]

theorem disband_thins (ho : Orderly s t cs) (hc : c ∈ cs.list) :
    t.Evolves (fun _ o o' => o.Thins s (fun _ => False) o') (c.disband t) :=
  (c.disband_evolves (ho.enrolled.nodup c hc).1 (ho.enrolled.root_not_member hc hc) t).mono
    fun h o _ _ he => he ▸ c.thins_fate h o

theorem edge_of_disband (ho : Orderly s t cs) (hc : c ∈ cs.list) {k : Strength} {g : Handle}
    (he : Edge s (c.disband t) h k g) : Edge s t h k g :=
  he.back ho.regular ho.fits (disband_thins ho hc) fun _ _ _ hr => hr

/-- The objects of the dissolved cluster belong to none any more; the others belong where they
did. -/
theorem rootOf_disband (ho : Orderly s t cs) (hc : c ∈ cs.list) (h : Handle) :
    (c.disband t).rootOf h = if h ∈ c.objects then none else t.rootOf h := by
  split
  · rename_i hm
    rcases Cluster.mem_objects.mp hm with rfl | hm
    · obtain ⟨o, hg, -, hn⟩ := ho.enrolled.root c hc
      rw [Table.rootOf_eq (get?_disband_root ho hc hg)]
      simp [Object.disband, hn]
    · obtain ⟨o, hg, hown, -⟩ := ho.enrolled.member c hc h hm
      rw [Table.rootOf_eq (get?_disband_member ho hc hm hg), o.owner_release,
        o.has_release (by decide) (by decide), ho.enrolled.not_root_of_owner hg hown]
      simp
  · rename_i hn
    simp [Table.rootOf, get?_disband_of_not_mem ho hc hn]

/-- The objects of two clusters are apart. -/
theorem objects_disjoint (he : Enrolled t cs) {d : Cluster} (hc : c ∈ cs.list) (hd : d ∈ cs.list)
    (hne : d.root ≠ c.root) (hm : h ∈ d.objects) : h ∉ c.objects := by
  intro hm'
  have h1 := he.rootOf_of_mem hd hm
  rw [he.rootOf_of_mem hc hm'] at h1
  exact hne (Option.some.inj h1).symm

/-- What belongs to a cluster after another one was dissolved is as it was. -/
theorem belongs_of_disband (ho : Orderly s t cs) (hc : c ∈ cs.list)
    (hget : (c.disband t).get? h = some o) (hbelongs : o.has .clusterRoot = true ∨ o.owner ≠ none) :
    h ∉ c.objects ∧ t.get? h = some o := by
  have hnot : h ∉ c.objects := by
    intro hm
    have hr := rootOf_disband ho hc h
    rw [if_pos hm, Table.rootOf_eq hget, Option.or_eq_none_iff] at hr
    rcases hbelongs with hb | hb
    · rw [if_pos hb] at hr
      cases hr.2
    · exact hb hr.1
  refine ⟨hnot, ?_⟩
  rwa [get?_disband_of_not_mem ho hc hnot] at hget

/-- Clusters and objects agree after a cluster was dissolved. -/
theorem Orderly.enrolled_disband (ho : Orderly s t cs) (hc : c ∈ cs.list)
    (hb : Clusters.Becomes (fun d d' => d.Refreshed s (c.disband t) c.root d') (cs.erase c.root)
      cs') : Enrolled (c.disband t) cs' := by
  have he := ho.enrolled
  refine ⟨?_, ?_, ?_, ?_, ?_, ?_, ?_⟩
  · rw [hb.roots]
    exact he.distinct.sublist (List.filter_sublist.map _)
  · intro d' hd'
    obtain ⟨d, hd, hne, -, hroot⟩ := hb.back_erase hd'
    rw [hroot, get?_disband_of_not_mem ho hc (objects_disjoint he hc hd hne
      (Cluster.mem_objects.mpr (.inl rfl)))]
    exact he.root d hd
  · intro h o' ho' hf
    obtain ⟨hnot, hg⟩ := belongs_of_disband ho hc ho' (.inl hf)
    obtain ⟨d, hd, rfl⟩ := he.registered h o' hg hf
    have hne : d.root ≠ c.root := fun hx => hnot (Cluster.mem_objects.mpr (.inl hx))
    obtain ⟨d', hd', -, hroot⟩ := hb.forth_erase hd hne
    exact ⟨d', hd', hroot⟩
  · intro d' hd' m hm
    obtain ⟨d, hd, hne, hR, hroot⟩ := hb.back_erase hd'
    rw [hR.members] at hm
    rw [hroot, get?_disband_of_not_mem ho hc (objects_disjoint he hc hd hne
      (Cluster.mem_objects.mpr (.inr hm)))]
    exact he.member d hd m hm
  · intro h o' r ho' hown
    obtain ⟨hnot, hg⟩ := belongs_of_disband ho hc ho' (.inr (by simp [hown]))
    obtain ⟨d, hd, rfl, hm⟩ := he.listed h o' r hg hown
    have hne : d.root ≠ c.root := by
      intro hx
      rw [Clusters.eq_of_root he.distinct hd hc hx] at hm
      exact hnot (Cluster.mem_objects.mpr (.inr hm))
    obtain ⟨d', hd', hR, hroot⟩ := hb.forth_erase hd hne
    exact ⟨d', hd', hroot, hR.members ▸ hm⟩
  · intro d' hd'
    obtain ⟨d, hd, -, hR, -⟩ := hb.back_erase hd'
    obtain ⟨h1, h2, h3⟩ := he.nodup d hd
    rw [hR.members]
    unfold Cluster.Refreshed at hR
    split at hR
    · rename_i hgone
      exact ⟨h1, hR.nodup_referenced (swapErase_spec h2 hgone).1, hR.nodup_mutables h3⟩
    · subst hR
      exact ⟨h1, h2, h3⟩
  · intro d' hd' m hm
    obtain ⟨d, hd, -, hR, hroot⟩ := hb.back_erase hd'
    rw [isPermanent_disband, isPermanent_disband, hroot]
    exact he.pooled d hd m (hR.members ▸ hm)

/-- The other clusters stay registered. -/
theorem registered_of_dissolve
    (hb : Clusters.Becomes (fun d d' => d.Refreshed s (c.disband t) c.root d') (cs.erase c.root)
      cs') {r : Handle} (hr : ∃ d ∈ cs.list, d.root = r) (hne : r ≠ c.root) :
    ∃ d' ∈ cs'.list, d'.root = r := by
  obtain ⟨d, hd, hroot⟩ := hr
  rw [← hroot] at hne ⊢
  obtain ⟨d', hd', -, hsame⟩ := hb.forth_erase hd hne
  exact ⟨d', hd', hsame⟩

section

variable (ho : Orderly s t cs) (hc : c ∈ cs.list)
  (hb : Clusters.Becomes (fun d d' => d.Refreshed s (c.disband t) c.root d') (cs.erase c.root) cs')
  {d d' : Cluster} (hd : d ∈ cs.list) (hp : t.isPermanent d.root = false)
include ho hc hb hd hp

/-- A cluster that referenced the dissolved one has looked through its references anew. -/
theorem tracks_of_noted
    (hlive : ∀ h ∈ d.objects, ∀ g, Edge s t h .strong g → ∃ o, t.get? g = some o)
    (hgone : c.root ∈ d.referenced)
    (hR : Cluster.Noted s (c.disband t) d.objects
      { d with referenced := swapErase d.referenced c.root } d') :
    d'.Tracks s (c.disband t) cs' := by
  have he' := ho.enrolled_disband hc hb
  have hev := disband_thins ho hc
  have htidy := hev.tidy ho.tidy
  have htr := ho.tracked d hd hp
  have hswap := (swapErase_spec (ho.enrolled.nodup d hd).2.1 hgone).2
  refine ⟨fun r hr => ?_, fun m hm => ?_, fun h hh g hedge hpg hout => ?_⟩
  · rcases (hR.mem_referenced r).mp hr with hr | ⟨h, -, g, -, hout⟩
    · obtain ⟨hr, hrne⟩ := (hswap r).mp hr
      exact registered_of_dissolve hb (htr.referenced r hr) hrne
    · obtain ⟨-, -, e, hemem, heroot, -⟩ := Cluster.registered_of_outside htidy he' hout
      exact ⟨e, hemem, heroot⟩
  · rcases (hR.mem_mutables m).mp hm with hm | ⟨h, -, g, -, hout⟩
    · obtain ⟨⟨o, hg⟩, hpm⟩ := htr.mutables m hm
      obtain ⟨o', ho', -⟩ := hev.kept m o hg
      exact ⟨⟨o', ho'⟩, (isPermanent_disband c t m).trans hpm⟩
    · obtain ⟨hmg, -, hpg, hl⟩ := Cluster.eq_of_outside htidy hout
      rw [hmg]
      exact ⟨hl, hpg⟩
  · rw [hR.objects] at hh hout
    obtain ⟨o, hg⟩ := hlive h hh g (edge_of_disband ho hc hedge)
    obtain ⟨o', ho', -⟩ := hev.kept g o hg
    exact hR.notes htidy hh hedge ⟨o', ho'⟩ hpg hout

/-- A cluster that did not reference the dissolved one knows of its references as before. -/
theorem tracks_of_not_mem (hgone : c.root ∉ d.referenced) : d.Tracks s (c.disband t) cs' := by
  have htr := ho.tracked d hd hp
  refine ⟨fun r hr => ?_, fun m hm => ?_, fun h hh g hedge hpg hout => ?_⟩
  · exact registered_of_dissolve hb (htr.referenced r hr) fun hx => hgone (hx ▸ hr)
  · obtain ⟨⟨o, hg⟩, hpm⟩ := htr.mutables m hm
    obtain ⟨o', ho', -⟩ := (disband_thins ho hc).kept m o hg
    exact ⟨⟨o', ho'⟩, (isPermanent_disband c t m).trans hpm⟩
  · rw [isPermanent_disband] at hpg
    rcases htr.covered h hh g (edge_of_disband ho hc hedge) hpg hout with hm | ⟨r, hr, hroot⟩
    · exact .inl hm
    · refine .inr ⟨r, hr, ?_⟩
      rw [rootOf_disband ho hc, if_neg, hroot]
      intro hm
      rw [ho.enrolled.rootOf_of_mem hc hm] at hroot
      cases hroot
      exact hgone hr

end

/-- Dissolving a cluster leaves the heap in order. -/
theorem Orderly.dissolve (ho : Orderly s t cs) (hc : c ∈ cs.list)
    (hlive : ∀ d ∈ cs.list, t.isPermanent d.root = false → ∀ h ∈ d.objects, ∀ g,
      Edge s t h .strong g → ∃ o, t.get? g = some o)
    (hb : Clusters.Becomes (fun d d' => d.Refreshed s (c.disband t) c.root d') (cs.erase c.root)
      cs') : Orderly s (c.disband t) cs' := by
  have he := ho.enrolled
  have hev := c.disband_evolves (he.nodup c hc).1 (he.root_not_member hc hc) t
  refine ⟨ho.regular, hev.tidy ho.tidy, ?_, ho.enrolled_disband hc hb, ?_, ?_⟩
  · intro h o' ho'
    obtain ⟨o, hg, rfl⟩ := hev.back ho'
    have hthin : o.Thins s (fun _ => False) (c.fate h o) := c.thins_fate h o
    exact hthin.fits (ho.fits h o hg)
  · intro d' hd' hp
    obtain ⟨d, hd, -, hR, hroot⟩ := hb.back_erase hd'
    rw [isPermanent_disband, hroot] at hp
    unfold Cluster.Refreshed at hR
    split at hR
    · rename_i hgone
      exact tracks_of_noted ho hc hb hd hp (hlive d hd hp) hgone hR
    · rename_i hgone
      exact hR ▸ tracks_of_not_mem ho hc hb hd hp hgone
  · intro h o' ho'
    obtain ⟨o, hg, rfl⟩ := hev.back ho'
    rw [Cluster.has_fate (by decide) (by decide) (by decide),
      Cluster.has_fate (by decide) (by decide) (by decide)]
    exact ho.unkilled h o hg

end

end TracingHeap

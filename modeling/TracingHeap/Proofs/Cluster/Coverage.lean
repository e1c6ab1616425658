import TracingHeap.Proofs.Cluster.Dissolution
import TracingHeap.Proofs.Schema.Lineage
import TracingHeap.Proofs.Mark.FaultSources

namespace TracingHeap

/-- Root flags, owners and member lists say the same of the objects that are there. -/
structure Clusters.Agrees (t : Table) (cs : Clusters) : Prop where
  distinct : (cs.list.map (·.root)).Nodup
  flagged : ∀ h o, t.get? h = some o → (o.has .clusterRoot = true ↔ ∃ c ∈ cs.list, c.root = h)
  owned : ∀ h o, t.get? h = some o → ∀ r,
    o.owner = some r ↔ ∃ c ∈ cs.list, c.root = r ∧ h ∈ c.members
  unowned : ∀ c ∈ cs.list, ∀ o, t.get? c.root = some o → o.owner = none

/-- The objects of the cluster can be read, and it knows of every object that they lead to: by itself,
or by the root of its cluster. -/
structure Cluster.Covers (s : Schema) (t : Table) (cs : Clusters) (c : Cluster) : Prop where
  readable : ∀ h ∈ c.objects, t.Walkable s h
  known : ∀ g, c.Leads s t g →
    g ∈ c.mutables ∨ ∃ d ∈ cs.list, g ∈ d.objects ∧ d.root ∈ c.referenced

/-- The objects are as their classes say, table and clusters agree, and every cluster knows of every
reference that leaves it. -/
structure Clusters.Covered (s : Schema) (t : Table) (cs : Clusters) : Prop where
  tidy : t.Tidy
  conforms : ∀ h o, t.get? h = some o → s.Conforms o
  agrees : cs.Agrees t
  nodup : ∀ c ∈ cs.list, c.referenced.Nodup ∧ c.mutables.Nodup
  covers : ∀ c ∈ cs.list, c.Covers s t cs

namespace Clusters.Agrees

variable {t : Table} {cs : Clusters} {c d : Cluster} {h r : Handle} {o : Object}

theorem not_mem_of_root (a : cs.Agrees t) (hc : c ∈ cs.list) (hd : d ∈ cs.list)
    (ho : t.get? c.root = some o) : c.root ∉ d.members := by
  intro hm
  have hown := (a.owned _ o ho d.root).mpr ⟨d, hd, rfl, hm⟩
  rw [a.unowned c hc o ho] at hown
  cases hown

/-- An object that is there belongs to a cluster if it has a root. -/
theorem rootOf_iff (a : cs.Agrees t) (ho : t.get? h = some o) :
    t.rootOf h = some r ↔ ∃ c ∈ cs.list, c.root = r ∧ h ∈ c.objects := by
  rw [Table.rootOf_eq ho]
  cases hown : o.owner with
  | some q =>
    obtain ⟨d, hd, rfl, hm⟩ := (a.owned h o ho q).mp hown
    rw [Option.some_or, Option.some.injEq]
    constructor
    · rintro rfl
      exact ⟨d, hd, rfl, Cluster.mem_objects.mpr (.inr hm)⟩
    · rintro ⟨c, hc, rfl, hm'⟩
      rcases Cluster.mem_objects.mp hm' with rfl | hm'
      · rw [a.unowned c hc o ho] at hown
        cases hown
      · exact Option.some.inj (hown.symm.trans ((a.owned h o ho c.root).mpr ⟨c, hc, rfl, hm'⟩))
  | none =>
    rw [Option.none_or, Option.ite_none_right_eq_some, Option.some.injEq, a.flagged h o ho]
    constructor
    · rintro ⟨⟨c, hc, hroot⟩, rfl⟩
      exact ⟨c, hc, hroot, Cluster.mem_objects.mpr (.inl hroot.symm)⟩
    · rintro ⟨c, hc, rfl, hm⟩
      rcases Cluster.mem_objects.mp hm with rfl | hm
      · exact ⟨⟨c, hc, rfl⟩, rfl⟩
      · have := (a.owned h o ho c.root).mpr ⟨c, hc, rfl, hm⟩
        rw [hown] at this
        cases this

end Clusters.Agrees

theorem Object.cells_release (o : Object) : o.release.cells = o.cells := by
  unfold release
  dsimp only
  split <;> rfl

theorem Object.isUnreachable_release_eq (o : Object) :
    o.release.isUnreachable = (o.isUnreachable || !o.has .reachableInCluster) := by
  unfold isUnreachable release
  simp only [has_clear, has_setOwner]
  cases hr : o.has .reachableInCluster <;> simp

/-- A member is released once and for all. -/
theorem Object.release_release (o : Object) : o.release.release = o.release := by
  have hclear : ∀ m : Flags, (m.clear .noStrongReference).clear .noStrongReference =
      m.clear .noStrongReference := by
    intro m
    unfold Flags.clear Flags.remove
    rw [BitVec.and_assoc, BitVec.and_self]
  have hset : ∀ m : Flags, (((m.clear .noStrongReference).set .unreachable).clear
      .noStrongReference).set .unreachable = (m.clear .noStrongReference).set .unreachable := by
    intro m
    unfold Flags.clear Flags.set Flags.remove Flags.insert
    refine congrArg Flags.mk (BitVec.eq_of_getLsbD_eq fun i hi => ?_)
    simp only [BitVec.getLsbD_or, BitVec.getLsbD_and, BitVec.getLsbD_not]
    grind
  have hric : o.release.has .reachableInCluster = o.has .reachableInCluster :=
    o.has_release (by decide) (by decide)
  cases hr : o.has .reachableInCluster with
  | true =>
    have hflags : o.release = (o.setOwner none).clear .noStrongReference := by
      simp [release, hr]
    rw [release]
    simp only [has_clear, has_setOwner, hric, hr]
    rw [hflags]
    simp [clear, setOwner, hclear]
  | false =>
    have hflags : o.release = ((o.setOwner none).clear .noStrongReference).set .unreachable := by
      simp [release, hr]
    rw [release]
    simp only [has_clear, has_setOwner, hric, hr]
    rw [hflags]
    simp [clear, set, setOwner, hset]

/-- Changing objects by a rule for which once is enough. -/
theorem Table.get?_foldl_modify_idem {f : Object → Object} (hf : ∀ o, f (f o) = f o)
    (l : List Handle) (t : Table) (g : Handle) :
    (l.foldl (fun t h => t.modify h f) t).get? g =
      if g ∈ l then (t.get? g).map f else t.get? g := by
  induction l generalizing t with
  | nil => simp
  | cons h rest ih =>
    rw [List.foldl_cons, ih, get?_modify]
    by_cases hg : g = h
    · cases t.get? g <;> simp [hg, hf]
    · simp [hg]

namespace Clusters.Agrees

variable {t : Table} {cs : Clusters} {c : Cluster} {h : Handle} {o : Object}

theorem get?_disband (a : cs.Agrees t) (hc : c ∈ cs.list) (h : Handle) :
    (c.disband t).get? h = (t.get? h).map (c.fate h) := by
  have hmembers := Table.get?_foldl_modify_idem Object.release_release c.members
    (t.modify c.root Object.disband) h
  refine hmembers.trans ?_
  rw [Table.get?_modify]
  cases ho : t.get? h with
  | none => simp
  | some o =>
    by_cases he : h = c.root
    · have hnot : h ∉ c.members := by
        subst he
        exact a.not_mem_of_root hc hc ho
      rw [if_neg hnot, if_pos he, Option.map_some, Option.map_some, Cluster.fate, if_pos he]
    · rw [if_neg he, Option.map_some, Option.map_some, Cluster.fate, if_neg he]
      split <;> rfl

theorem disband_evolves (a : cs.Agrees t) (hc : c ∈ cs.list) :
    t.Evolves (fun h o o' => o' = c.fate h o) (c.disband t) := by
  refine ⟨Table.boundary_foldl_modify Object.release c.members _,
    fun ht => Table.tidy_foldl_modify Cluster.handle_release (ht.modify _ fun _ => rfl),
    fun h hnone => ?_, fun h o ho => ?_⟩
  · rw [a.get?_disband hc, hnone]
    rfl
  · exact ⟨_, by rw [a.get?_disband hc, ho]; rfl, rfl⟩

end Clusters.Agrees

/-- What dissolving a cluster does to the objects and to the other clusters. -/
structure Cluster.Parts (c : Cluster) (t : Table) (cs : Clusters) (t' : Table) (cs' : Clusters) :
    Prop where
  roots : cs'.list.map (·.root) = (cs.list.map (·.root)).filter (· != c.root)
  root : ∀ o, t.get? c.root = some o → ∃ o', t'.get? c.root = some o' ∧
    o'.has .clusterRoot = false ∧ o'.owner = o.owner ∧ o'.cells = o.cells ∧
      ∀ f, f ≠ .clusterRoot → f ≠ .noStrongReference → o'.has f = o.has f
  member : ∀ h ∈ c.members, ∀ o, t.get? h = some o → ∃ o', t'.get? h = some o' ∧
    o'.owner = none ∧ o'.isUnreachable = (o.isUnreachable || !o.has .reachableInCluster) ∧
      o'.cells = o.cells ∧
      ∀ f, f ≠ .unreachable → f ≠ .noStrongReference → o'.has f = o.has f
  outside : ∀ h, h ∉ c.objects ∨ t.get? h = none → t'.get? h = t.get? h
  forgotten : ∀ d ∈ cs'.list, c.root ∉ d.referenced
  kept : ∀ d ∈ cs.list, d.root ≠ c.root → ∃ d' ∈ cs'.list, d'.root = d.root ∧
    d'.members = d.members ∧ ∀ m ∈ d.mutables, m ∈ d'.mutables

namespace Clusters

variable {s : Schema} {t : Table} {cs cs' : Clusters} {c d d' : Cluster} {h g : Handle}

/-- Refreshing comes back where all objects of the clusters can be walked. -/
theorem refreshAll_returns (hs : s.Regular) (hfit : ∀ h o, t.get? h = some o → s.Fits o)
    (gone : Handle) (rs : List Handle) : ∀ (cs : Clusters), (cs.list.map (·.root)).Nodup →
    rs.Nodup → (∀ d ∈ cs.list, d.root ∈ rs → gone ∈ d.referenced) →
    (∀ d ∈ cs.list, ∀ h ∈ d.objects, t.Walkable s h) →
    ∃ cs', rs.foldlM (fun cs r => cs.refresh s t gone r) cs = .ok cs' := by
  induction rs with
  | nil => exact fun cs _ _ _ _ => ⟨cs, rfl⟩
  | cons r rest ih =>
    intro cs hd hrs href hwalk
    obtain ⟨hr, hrest⟩ := List.nodup_cons.mp hrs
    have hone : ∃ cs₁, cs.refresh s t gone r = .ok cs₁ := by
      unfold refresh
      cases hget : cs.get? r with
      | none => exact ⟨cs, rfl⟩
      | some c =>
        obtain ⟨c', hc'⟩ := Cluster.noteAll_of_walkable
          (c := { c with referenced := swapErase c.referenced gone }) hs hfit
          (hwalk c (mem_of_get? hget).1)
        dsimp only
        rw [hc']
        exact ⟨_, rfl⟩
    obtain ⟨cs₁, hok⟩ := hone
    rcases refresh_cases hs hfit hd fun d hm he => href d hm (he ▸ List.mem_cons_self) with
      ⟨cs₁', hok', hbecomes⟩ | ⟨f, hf, -⟩
    · rw [hok] at hok'
      cases hok'
      have hback : ∀ e ∈ cs₁.list, ∃ d ∈ cs.list, e.objects = d.objects ∧ e.root = d.root ∧
          (d.root ≠ r → e = d) := by
        intro e he
        obtain ⟨d, hdm, hR, hroot⟩ := hbecomes.back he
        by_cases hdr : d.root = r
        · rw [if_pos hdr] at hR
          exact ⟨d, hdm, hR.objects, hroot, fun hne => absurd hdr hne⟩
        · rw [if_neg hdr] at hR
          exact ⟨d, hdm, congrArg Cluster.objects hR, hroot, fun _ => hR⟩
      rw [List.foldlM_cons, hok]
      refine ih cs₁ (hbecomes.roots ▸ hd) hrest (fun e he hin => ?_) fun e he h hh => ?_
      · obtain ⟨d, hdm, -, hroot, hsame⟩ := hback e he
        have hne : d.root ≠ r := fun hdr => hr (by rwa [← hdr, ← hroot])
        rw [hsame hne]
        exact href d hdm (List.mem_cons_of_mem _ (hroot ▸ hin))
      · obtain ⟨d, hdm, hobjects, -⟩ := hback e he
        exact hwalk d hdm h (hobjects ▸ hh)
    · rw [hok] at hf
      cases hf

theorem dissolve_returns (hs : s.Regular) (hc : c ∈ cs.list)
    (hdistinct : (cs.list.map (·.root)).Nodup)
    (hfit : ∀ h o, (c.disband t).get? h = some o → s.Fits o)
    (hwalk : ∀ d ∈ cs.list, ∀ h ∈ d.objects, (c.disband t).Walkable s h) :
    ∃ cs', cs.dissolve s t c.root = .ok (some c, c.disband t, cs') ∧
      Becomes (fun d d' => d.Refreshed s (c.disband t) c.root d') (cs.erase c.root) cs' := by
  have hdist : ((cs.erase c.root).list.map (·.root)).Nodup :=
    hdistinct.sublist (List.filter_sublist.map _)
  obtain ⟨cs', hcs'⟩ := refreshAll_returns hs hfit c.root _ (cs.erase c.root) hdist
    (nodup_referencing hdist c.root) (fun d hd => (root_mem_referencing hdist hd).mp)
    fun d hd => hwalk d (mem_erase.mp hd).1
  rcases dissolve_refreshes hs hc hdistinct hfit with hok | ⟨f, hf, -⟩
  · exact hok
  · unfold dissolve at hf
    rw [get?_of_mem hdistinct hc] at hf
    dsimp only at hf
    have hret := congrArg (· >>= fun others => .ok (some c, c.disband t, others)) hcs'
    have := hf.symm.trans hret
    cases this

end Clusters

/-- Whether an object can be walked is a matter of its class. -/
theorem Schema.walks_congr {s : Schema} {o o' : Object} (hclass : o'.classId = o.classId) :
    (∃ w, s.walk o' = .ok w) ↔ ∃ w, s.walk o = .ok w := by
  simp only [walk_ok_iff, hclass]
  exact ⟨fun ⟨_, ts, hts, _⟩ => ⟨_, ts, hts, rfl⟩, fun ⟨_, ts, hts, _⟩ => ⟨_, ts, hts, rfl⟩⟩

namespace Clusters.Covered

variable {s : Schema} {t : Table} {cs cs' : Clusters} {c d d' : Cluster} {h g r : Handle}

section

variable (hs : s.Regular) (k : cs.Covered s t) (hc : c ∈ cs.list)

include hs k

theorem fits (h : Handle) (o : Object) (ho : t.get? h = some o) : s.Fits o :=
  hs.conforms_iff.mp (k.conforms h o ho)

include hc

theorem conforms_disband (h : Handle) (o' : Object) (ho' : (c.disband t).get? h = some o') :
    s.Conforms o' := by
  obtain ⟨o, ho, rfl⟩ := (k.agrees.disband_evolves hc).back ho'
  have hthin : o.Thins s (fun _ => False) (c.fate h o) := c.thins_fate h o
  exact hs.conforms_iff.mpr (hthin.fits (k.fits hs h o ho))

omit hs in
theorem walkable_disband (hwalk : t.Walkable s h) : (c.disband t).Walkable s h := by
  intro o' ho'
  obtain ⟨o, ho, rfl⟩ := (k.agrees.disband_evolves hc).back ho'
  have hthin : o.Thins s (fun _ => False) (c.fate h o) := c.thins_fate h o
  exact (Schema.walks_congr hthin.classId).mpr (hwalk o ho)

/-- The cluster leads where it led. -/
theorem leads_disband (hobjects : d'.objects = d.objects) (hleads : d'.Leads s (c.disband t) g) :
    d.Leads s t g := by
  have ev := k.agrees.disband_evolves hc
  have hthin : ∀ h o o', o' = c.fate h o → o.Thins s (fun _ => False) o' :=
    fun h o _ he => he ▸ c.thins_fate h o
  obtain ⟨⟨h, hh, hedge⟩, ⟨o', ho'⟩, hp, hout⟩ := hleads
  obtain ⟨o, ho, -⟩ := ev.back ho'
  exact ⟨⟨h, hobjects ▸ hh, hedge.back hs (k.fits hs) ev hthin⟩, ⟨o, ho⟩,
    (ev.isPermanent g).symm.trans hp, hobjects ▸ hout⟩

end

section

variable (k : cs.Covered s t) (hc : c ∈ cs.list)
  (hb : Becomes (fun d d' => d.Refreshed s (c.disband t) c.root d') (cs.erase c.root) cs')

include k hc hb

/-- Table and clusters agree again. -/
theorem agrees_dissolve : cs'.Agrees (c.disband t) := by
  have a := k.agrees
  have howner : ∀ {h o}, t.get? h = some o →
      (c.fate h o).owner = if h ∈ c.objects then none else o.owner := by
    intro h o ho
    exact Cluster.owner_fate fun he => a.unowned c hc o (he ▸ ho)
  refine ⟨?_, fun h o' ho' => ?_, fun h o' ho' r => ?_, fun d' hd' o' ho' => ?_⟩
  · rw [hb.roots]
    exact a.distinct.sublist (List.filter_sublist.map _)
  · obtain ⟨o, ho, rfl⟩ := (a.disband_evolves hc).back ho'
    by_cases he : h = c.root
    · have hflag : (c.fate h o).has .clusterRoot = false := by
        rw [Cluster.fate, if_pos he]
        simp [Object.disband]
      rw [hflag]
      refine iff_of_false Bool.false_ne_true ?_
      rintro ⟨d', hd', hroot⟩
      obtain ⟨d, -, hne, -, hsame⟩ := hb.back_erase hd'
      exact hne (hsame.symm.trans (hroot.trans he))
    · have hflag : (c.fate h o).has .clusterRoot = o.has .clusterRoot := by
        rw [Cluster.fate, if_neg he]
        split
        · exact o.has_release (by decide) (by decide)
        · rfl
      rw [hflag, a.flagged h o ho]
      constructor
      · rintro ⟨d, hd, rfl⟩
        obtain ⟨d', hd', -, hroot⟩ := hb.forth_erase hd he
        exact ⟨d', hd', hroot⟩
      · rintro ⟨d', hd', rfl⟩
        obtain ⟨d, hd, -, -, hroot⟩ := hb.back_erase hd'
        exact ⟨d, hd, hroot.symm⟩
  · obtain ⟨o, ho, rfl⟩ := (a.disband_evolves hc).back ho'
    rw [howner ho]
    by_cases hin : h ∈ c.objects
    · rw [if_pos hin]
      refine iff_of_false (Option.some_ne_none r).symm ?_
      rintro ⟨d', hd', -, hm⟩
      obtain ⟨d, hd, hne, hrefreshed, -⟩ := hb.back_erase hd'
      have hroot := (a.rootOf_iff ho).mpr ⟨d, hd, rfl, Cluster.mem_objects.mpr (.inr (hrefreshed.members ▸ hm))⟩
      rw [(a.rootOf_iff ho).mpr ⟨c, hc, rfl, hin⟩] at hroot
      exact hne (Option.some.inj hroot).symm
    · rw [if_neg hin, a.owned h o ho r]
      constructor
      · rintro ⟨d, hd, rfl, hm⟩
        have hne : d.root ≠ c.root := fun he =>
          hin (Cluster.mem_objects.mpr (.inr (eq_of_root a.distinct hd hc he ▸ hm)))
        obtain ⟨d', hd', hrefreshed, hroot⟩ := hb.forth_erase hd hne
        exact ⟨d', hd', hroot, hrefreshed.members ▸ hm⟩
      · rintro ⟨d', hd', rfl, hm⟩
        obtain ⟨d, hd, -, hrefreshed, hroot⟩ := hb.back_erase hd'
        exact ⟨d, hd, hroot.symm, hrefreshed.members ▸ hm⟩
  · obtain ⟨d, hd, -, -, hroot⟩ := hb.back_erase hd'
    obtain ⟨o, ho, rfl⟩ := (a.disband_evolves hc).back ho'
    rw [howner ho]
    split
    · rfl
    · exact a.unowned d hd o (hroot ▸ ho)

/-- Nothing is left of the dissolved cluster in the lists of the others. -/
theorem not_mem_referenced (hd' : d' ∈ cs'.list) : c.root ∉ d'.referenced := by
  have a := k.agrees_dissolve hc hb
  obtain ⟨d, hd, hne, hR, -⟩ := hb.back_erase hd'
  unfold Cluster.Refreshed at hR
  split at hR
  · rename_i hgone
    have ht := (k.agrees.disband_evolves hc).tidy k.tidy
    rw [hR.referenced_iff rfl ht, not_or]
    refine ⟨fun hm => ?_, ?_⟩
    · exact (((swapErase_spec (k.nodup d hd).1 hgone).2 _).mp hm).2 rfl
    · rintro ⟨g, ⟨-, ⟨o, ho⟩, -, -⟩, hroot⟩
      obtain ⟨e', he', her, -⟩ := (a.rootOf_iff ho).mp hroot
      obtain ⟨e, -, hne, -, hsame⟩ := hb.back_erase he'
      exact hne (hsame.symm.trans her)
  · rename_i hgone
    rw [hR]
    exact hgone

omit hb in
theorem nodup_refreshed (hd : d ∈ cs.list) (hR : d.Refreshed s (c.disband t) c.root d') :
    (d'.referenced.Nodup ∧ d'.mutables.Nodup) ∧ ∀ m ∈ d.mutables, m ∈ d'.mutables := by
  obtain ⟨hreferenced, hmutables⟩ := k.nodup d hd
  unfold Cluster.Refreshed at hR
  split at hR
  · rename_i hgone
    refine ⟨⟨hR.nodup_referenced (swapErase_spec hreferenced hgone).1, hR.nodup_mutables hmutables⟩,
      fun m hm => ?_⟩
    exact (hR.mutables_iff rfl ((k.agrees.disband_evolves hc).tidy k.tidy)).mpr (.inl hm)
  · rw [hR]
    exact ⟨⟨hreferenced, hmutables⟩, fun _ => id⟩

/-- The clusters that are left know of all their references. -/
theorem covers_dissolve (hs : s.Regular) (hd' : d' ∈ cs'.list) : d'.Covers s (c.disband t) cs' := by
  have a := k.agrees_dissolve hc hb
  obtain ⟨d, hd, hne, hR, hroot⟩ := hb.back_erase hd'
  have hobjects : d'.objects = d.objects := by rw [Cluster.objects, Cluster.objects, hroot, hR.members]
  have hcovers := k.covers d hd
  refine ⟨fun h hh => k.walkable_disband hc (hcovers.readable h (hobjects ▸ hh)), fun g hleads => ?_⟩
  unfold Cluster.Refreshed at hR
  split at hR
  · -- it has looked at all its references again
    have ht := (k.agrees.disband_evolves hc).tidy k.tidy
    have hbare : ({ d with referenced := swapErase d.referenced c.root } : Cluster).Leads s
        (c.disband t) g :=
      ⟨hobjects ▸ hleads.edge, hleads.live, hleads.collectable, hobjects ▸ hleads.outside⟩
    obtain ⟨o, ho⟩ := hleads.live
    cases hr : (c.disband t).rootOf g with
    | none => exact .inl ((hR.mutables_iff rfl ht).mpr (.inr ⟨hbare, hr⟩))
    | some r =>
      obtain ⟨e, he, rfl, hg⟩ := (a.rootOf_iff ho).mp hr
      exact .inr ⟨e, he, hg, (hR.referenced_iff rfl ht).mpr (.inr ⟨g, hbare, hr⟩)⟩
  · -- it knew of no object through the cluster that is gone
    rename_i hgone
    subst hR
    rcases hcovers.known g (k.leads_disband hs hc rfl hleads) with hm | ⟨e, he, hg, her⟩
    · exact .inl hm
    · have hother : e.root ≠ c.root := fun h => hgone (h ▸ her)
      obtain ⟨e', he', hrefreshed, hsame⟩ := hb.forth_erase he hother
      refine .inr ⟨e', he', ?_, hsame ▸ her⟩
      rwa [Cluster.objects, hsame, hrefreshed.members]

theorem covered_dissolve (hs : s.Regular) : cs'.Covered s (c.disband t) := by
  refine ⟨(k.agrees.disband_evolves hc).tidy k.tidy, k.conforms_disband hs hc,
    k.agrees_dissolve hc hb, fun d' hd' => ?_, fun d' hd' => k.covers_dissolve hc hb hs hd'⟩
  obtain ⟨d, hd, -, hR, -⟩ := hb.back_erase hd'
  exact (k.nodup_refreshed hc hd hR).1

theorem parts_dissolve : c.Parts t cs (c.disband t) cs' := by
  have hget := k.agrees.get?_disband hc
  refine ⟨?_, fun o ho => ?_, fun h hm o ho => ?_, fun h hout => ?_,
    fun d hd => k.not_mem_referenced hc hb hd, fun d hd hne => ?_⟩
  · rw [hb.roots, erase, List.filter_map]
    rfl
  · refine ⟨o.disband, ?_, ?_, rfl, rfl, fun f hf hf' => ?_⟩
    · rw [hget, ho, Option.map_some, Cluster.fate, if_pos rfl]
    · simp [Object.disband]
    · simp [Object.disband, Ne.symm hf, Ne.symm hf']
  · have hne : h ≠ c.root := fun he => k.agrees.not_mem_of_root hc hc (he ▸ ho) (he ▸ hm)
    refine ⟨o.release, ?_, o.owner_release, o.isUnreachable_release_eq, o.cells_release,
      fun f => o.has_release⟩
    rw [hget, ho, Option.map_some, Cluster.fate, if_neg hne, if_pos hm]
  · rw [hget]
    cases ho : t.get? h with
    | none => rfl
    | some o =>
      have hout := hout.resolve_right (by simp [ho])
      rw [Cluster.mem_objects, not_or] at hout
      rw [Option.map_some, Cluster.fate, if_neg hout.1, if_neg hout.2]
  · obtain ⟨d', hd', hR, hroot⟩ := hb.forth_erase hd hne
    exact ⟨d', hd', hroot, hR.members, (k.nodup_refreshed hc hd hR).2⟩

end

/-- Dissolving a cluster comes back, with the heap covered as before. -/
theorem dissolve (hs : s.Regular) (k : cs.Covered s t) (hc : c ∈ cs.list) :
    ∃ t' cs', cs.dissolve s t c.root = .ok (some c, t', cs') ∧ c.Parts t cs t' cs' ∧
      cs'.Covered s t' := by
  obtain ⟨cs', hok, hb⟩ := dissolve_returns hs hc k.agrees.distinct
    (fun h o ho => hs.conforms_iff.mp (k.conforms_disband hs hc h o ho))
    fun d hd h hh => k.walkable_disband hc ((k.covers d hd).readable h hh)
  exact ⟨_, cs', hok, k.parts_dissolve hc hb, k.covered_dissolve hc hb hs⟩

end Clusters.Covered

def Clusters.dissolveEach (s : Schema) : List Handle → Table → Clusters →
    Except Fault (Table × Clusters)
  | [], t, cs => .ok (t, cs)
  | root :: rest, t, cs => do
    let (_, t, cs) ← cs.dissolve s t root
    dissolveEach s rest t cs

/-- Dissolving a cluster takes away that cluster alone, frees its members of it, flags those that
nothing outside has reached, and leaves all other objects as they are. The other clusters forget it and
lose nothing else, and they know of all their references again; so they do after any number of clusters
have been dissolved, in any order. Regular classes are honest, so an object reports the same references
whatever flags it loses meanwhile. -/
theorem Clusters.dissolving_keeps_coverage {s : Schema} {t : Table} {cs : Clusters} (hs : s.Regular)
    (k : cs.Covered s t) :
    (∀ c ∈ cs.list, ∃ t' cs', cs.dissolve s t c.root = .ok (some c, t', cs') ∧
      c.Parts t cs t' cs' ∧ cs'.Covered s t') ∧
    ∀ roots, ∃ t' cs', dissolveEach s roots t cs = .ok (t', cs') ∧ cs'.Covered s t' ∧
      cs'.list.map (·.root) = (cs.list.map (·.root)).filter (· ∉ roots) := by
  refine ⟨fun c hc => k.dissolve hs hc, fun roots => ?_⟩
  induction roots generalizing t cs with
  | nil => exact ⟨t, cs, rfl, k, by simp⟩
  | cons r rest ih =>
    unfold dissolveEach
    cases hget : cs.get? r with
    | none =>
      have hskip : cs.dissolve s t r = .ok (none, t, cs) := by
        unfold dissolve
        rw [hget]
        rfl
      obtain ⟨t', cs', hok, k', hroots⟩ := ih k
      refine ⟨t', cs', ?_, k', hroots.trans (List.filter_congr fun x hx => ?_)⟩
      · rw [hskip]
        exact hok
      · have hne : x ≠ r := by
          rintro rfl
          obtain ⟨c, hc, hroot⟩ := List.mem_map.mp hx
          exact get?_eq_none_iff.mp hget c hc hroot
        simp [hne]
    | some c =>
      obtain ⟨hc, rfl⟩ := mem_of_get? hget
      obtain ⟨t₁, cs₁, hone, hparts, k₁⟩ := k.dissolve hs hc
      obtain ⟨t', cs', hok, k', hroots⟩ := ih k₁
      refine ⟨t', cs', ?_, k', ?_⟩
      · rw [hone]
        exact hok
      · rw [hroots, hparts.roots, List.filter_filter]
        refine List.filter_congr fun x _ => ?_
        by_cases hx : x = c.root <;> simp [hx]

/-- Without clusters in the permanent pool, a heap that is in order is covered. -/
theorem Orderly.covered {s : Schema} {t : Table} {cs : Clusters} (ho : Orderly s t cs)
    (hs : s.Streamed) (hpool : ∀ c ∈ cs.list, t.isPermanent c.root = false) : cs.Covered s t := by
  have he := ho.enrolled
  have hagrees : cs.Agrees t := by
    refine ⟨he.distinct, fun h o hget => ⟨he.registered h o hget, ?_⟩, fun h o hget r => ⟨?_, ?_⟩,
      fun c hc o hget => he.owner_root hc hget⟩
    · rintro ⟨c, hc, rfl⟩
      obtain ⟨p, hp, hflag, -⟩ := he.root c hc
      rw [hget] at hp
      cases hp
      exact hflag
    · exact fun hown => he.listed h o r hget hown
    · rintro ⟨c, hc, rfl, hm⟩
      exact (he.mem_members_iff hc hget).mp hm
  refine ⟨ho.tidy, fun h o hget => ho.regular.conforms_iff.mpr (ho.fits h o hget), hagrees,
    fun c hc => (he.nodup c hc).2, fun c hc =>
      ⟨fun h _ o hget => hs.walks ho.regular (ho.fits h o hget), fun g hleads => ?_⟩⟩
  obtain ⟨⟨h, hh, hedge⟩, -, hp, hout⟩ := hleads
  rcases (ho.tracked c hc (hpool c hc)).covered h hh g hedge hp hout with hm | ⟨r, hr, hroot⟩
  · exact .inl hm
  · obtain ⟨d, hd, rfl, hg⟩ := he.cluster_of_rootOf hroot
    exact .inr ⟨d, hd, hg, hr⟩

open Collector Sample in
/-- Two clusters, one of which leads to a member of the other, dissolved in turn. -/
theorem dissolving_keeps_coverage_pair : ∃ s t cs, s.Regular ∧ Clusters.Covered s t cs ∧
    cs.list.map (·.root) = [one, three] ∧ ∃ t' cs', cs.dissolveEach s [three, one] t = .ok (t', cs') ∧
      cs'.Covered s t' := by
  have hrun : runs .serial node (nodes 4 ++ [.formCluster three [four],
      .setReference one 0 (some four), .formCluster one [two]]) (fun c =>
        (c.schema.classes.all (·.stream.isOk) &&
          c.clusters.list.all fun d => !c.table.isPermanent d.root) &&
        c.clusters.list.map (·.root) == [one, three]) = true := by
    decide +kernel
  obtain ⟨c, hr, htest⟩ := Reached.of_runs node_honest (by decide +kernel) hrun
  simp only [Bool.and_eq_true, beq_iff_eq, Array.all_eq_true', List.all_eq_true,
    Bool.not_eq_true'] at htest
  obtain ⟨⟨hstreams, hpool⟩, hroots⟩ := htest
  have ho := hr.sound.settled.orderly
  have hcovered := ho.covered hstreams hpool
  obtain ⟨t', cs', hok, hcovered', -⟩ :=
    (Clusters.dissolving_keeps_coverage ho.regular hcovered).2 [three, one]
  exact ⟨c.schema, c.table, c.clusters, ho.regular, hcovered, hroots, t', cs', hok, hcovered'⟩

end TracingHeap

import TracingHeap.Proofs.Program.History

namespace TracingHeap

namespace Collector

variable {c d : Collector} {x h : Handle} {keep : Flags} {full : Bool} {stats : Statistics}

/-- Whoever names a killed object after a collection has the company of a cluster. A collection leaves
the killed object outside the pool. -/
theorem rootOf_of_names_killed (hc : c.Sound) (hx : c.table.isPermanent x = false)
    (hkilled : c.table.has x .pendingKill = true) (hok : c.collect keep full = .ok (stats, d))
    (ha : d.table.Awake h) (hp : d.table.isPermanent h = false)
    (he : Edge d.schema d.table h .strong x) :
    d.table.rootOf h ≠ none ∧ d.table.isPermanent x = false := by
  have hcollect := (collect_spec hc full (fun _ _ => .all) fun _ _ _ _ _ _ _ _ => trivial).ok hok
  obtain ⟨b, m, hb, hcondemns, hschema, hm⟩ := hcollect
  have hsettled := hcondemns.settled
  have hregular := hsettled.orderly.regular
  have ham := hm.spares.awake_back ha
  have hpm : m.table.isPermanent h = false := (hm.spares.isPermanent h).symm.trans hp
  have hem : Edge c.schema m.table h .strong x := by
    have he' : Edge c.schema d.table h .strong x := by
      rw [← hschema, ← hm.schema]
      exact he
    exact hm.spares.edge_back hregular hsettled.orderly.fits he'
  constructor
  · intro hroot
    rw [hm.spares.rootOf_eq ham] at hroot
    have hpb : b.table.isPermanent h = false := (hcondemns.isPermanent h).symm.trans hpm
    rcases hcondemns.tenable h .strong x ham hpb hroot hem with hperm | hspared
    · rw [hb.spares.isPermanent, hx] at hperm
      cases hperm
    · -- the target has outlived the mark, so it is the object that was killed
      obtain ⟨o, ho⟩ := hcondemns.live x (hsettled.linked h .strong x hem ham (.inr hpm))
      obtain ⟨o₀, ho₀, hw⟩ := hb.spares.back x o ho
      rw [Table.has_of_get? ho, hw.flag _ (by decide) (by decide)] at hspared
      rw [Table.has_of_get? ho₀, hspared] at hkilled
      cases hkilled
  · rw [hm.spares.isPermanent, hcondemns.isPermanent, hb.spares.isPermanent, hx]

end Collector

/-- A collectable object that survives a collection and still has a strong reference to a killed object
belongs to a cluster. There the killed object is one of the company, or the cluster knows of it; that
the slots of a cluster are nulled is not promised. -/
theorem Reached.killed_named_in_clusters_only {c d : Collector} {x h : Handle} {keep : Flags}
    {full : Bool} {stats : Statistics} (hr : Reached c) (hx : c.table.isPermanent x = false)
    (hkilled : c.table.has x .pendingKill = true) (hok : c.collect keep full = .ok (stats, d))
    (ha : d.table.Awake h) (hp : d.table.isPermanent h = false)
    (he : Edge d.schema d.table h .strong x) :
    ∃ k ∈ d.clusters.list, h ∈ k.objects ∧ (x ∈ k.objects ∨ k.Notes d.table x) := by
  have hcollected := (Collector.collect_keeps hr.sound keep full).ok hok
  have horderly := hcollected.settled.orderly
  obtain ⟨hrooted, hpx⟩ := Collector.rootOf_of_names_killed hr.sound hx hkilled hok ha hp he
  obtain ⟨r, hroot⟩ := Option.ne_none_iff_exists'.mp hrooted
  obtain ⟨k, hk, -, hh⟩ := horderly.enrolled.cluster_of_rootOf hroot
  refine ⟨k, hk, hh, ?_⟩
  by_cases hin : x ∈ k.objects
  · exact .inl hin
  · have hpk := (horderly.enrolled.permanent_objects hk hh).symm.trans hp
    exact .inr ((horderly.tracked k hk hpk).covered h hh x he hpx hin)

namespace Sample

/-- A rooted cluster of one object, which refers to an object that is killed. -/
def keepsake : List Operation :=
  nodes 2 ++ [.formCluster one [], .addRoot one, .setReference one 0 (some two), .kill two]

end Sample

open Collector Sample in
/-- The cluster knows of the killed object that its root refers to. -/
theorem killed_named_in_clusters_only_keepsake : ∃ (c d : Collector) (stats : Statistics),
    Reached c ∧ c.table.has two .pendingKill = true ∧ c.collect .empty true = .ok (stats, d) ∧
      ∃ k ∈ d.clusters.list, one ∈ k.objects ∧ (two ∈ k.objects ∨ k.Notes d.table two) := by
  have hrun : runs .serial node keepsake (fun c => c.table.has two .pendingKill &&
      !c.table.isPermanent two && c.leaves .empty true fun d => decide (d.table.Awake one) &&
        !d.table.isPermanent one && d.refers one .strong two) = true := by
    decide +kernel
  obtain ⟨c, hr, hc⟩ := Reached.of_runs node_honest (by decide) hrun
  simp only [Bool.and_eq_true, Bool.not_eq_true'] at hc
  obtain ⟨⟨hkilled, hx⟩, hleaves⟩ := hc
  obtain ⟨stats, d, hd, htest⟩ := collect_of_leaves hleaves
  simp only [Bool.and_eq_true, Bool.not_eq_true', decide_eq_true_eq] at htest
  obtain ⟨⟨ha, hp⟩, hrefers⟩ := htest
  exact ⟨c, d, stats, hr, hkilled, hd,
    hr.killed_named_in_clusters_only hx hkilled hd ha hp (edge_of_refers hrefers)⟩

open Collector Sample in
/-- An object is killed, and after the next collection the root of a cluster, which has survived, still
has a strong reference to it. -/
theorem killed_yet_named : ∃ (b c d : Collector) (stats : Statistics), Reached b ∧
    b.table.isPermanent two = false ∧ b.kill two = (.ok (), c) ∧
      c.collect .empty true = .ok (stats, d) ∧ d.table.Awake one ∧
        d.table.isPermanent one = false ∧ Edge d.schema d.table one .strong two := by
  have hrun : runs .serial node keepsake.dropLast (fun b => !b.table.isPermanent two &&
      ((b.kill two).1 matches .ok _) && (b.kill two).2.leaves .empty true fun d =>
        decide (d.table.Awake one) && !d.table.isPermanent one && d.refers one .strong two) = true := by
    decide +kernel
  obtain ⟨b, hr, hb⟩ := Reached.of_runs node_honest (by decide) hrun
  simp only [Bool.and_eq_true, Bool.not_eq_true'] at hb
  obtain ⟨⟨hx, hkill⟩, hleaves⟩ := hb
  obtain ⟨stats, d, hd, htest⟩ := collect_of_leaves hleaves
  simp only [Bool.and_eq_true, Bool.not_eq_true', decide_eq_true_eq] at htest
  obtain ⟨⟨ha, hp⟩, hrefers⟩ := htest
  split at hkill
  · rename_i u hu
    exact ⟨b, _, d, stats, hr, hx, Prod.ext hu rfl, hd, ha, hp, edge_of_refers hrefers⟩
  · cases hkill

end TracingHeap

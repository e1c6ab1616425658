import TracingHeap.Proofs.Cluster.ListOrder
import TracingHeap.Proofs.Mark.Rounds

namespace TracingHeap

namespace Cluster

variable {s : Schema} {t t' : Table} {c c' d d' : Cluster} {gone : Handle → Prop} {g r : Handle}

/-- What a cluster keeps when other clusters, whose roots are gone, have been dissolved. If it has
referenced one of them, it has looked at all its references again. -/
structure Sheds (s : Schema) (t : Table) (gone : Handle → Prop) (c d : Cluster) : Prop where
  root : d.root = c.root
  members : d.members = c.members
  referenced : ∀ r, r ∈ d.referenced ↔ ¬ gone r ∧ (r ∈ c.referenced ∨
    (∃ e ∈ c.referenced, gone e) ∧ ∃ g, c.Leads s t g ∧ t.rootOf g = some r)
  mutables : ∀ g, g ∈ d.mutables ↔ g ∈ c.mutables ∨
    (∃ e ∈ c.referenced, gone e) ∧ c.Leads s t g ∧ ∀ r, t.rootOf g = some r → gone r

namespace Sheds

theorem refl (c : Cluster) : c.Sheds s t (fun _ => False) c :=
  ⟨rfl, rfl, fun r => by simp, fun g => by simp⟩

theorem congr {gone' : Handle → Prop} (h : c.Sheds s t gone d) (hg : ∀ r, gone r ↔ gone' r) :
    c.Sheds s t gone' d := by
  have he : gone = gone' := funext fun r => propext (hg r)
  exact he ▸ h

theorem objects (h : c.Sheds s t gone d) : d.objects = c.objects := by
  rw [Cluster.objects, Cluster.objects, h.root, h.members]

theorem alike (h : c.Sheds s t gone d) (a : d.Alike d') : c.Sheds s t gone d' := by
  refine ⟨a.root.trans h.root, a.members.trans h.members, fun r => ?_, fun g => ?_⟩
  · rw [a.mem_referenced, h.referenced]
  · rw [a.mem_mutables, h.mutables]

/-- A cluster that has referenced none of the dissolved ones keeps what it kept. -/
theorem same (h : c.Sheds s t gone d) (hnone : ∀ e ∈ c.referenced, ¬ gone e) :
    (∀ r, r ∈ d.referenced ↔ r ∈ c.referenced) ∧ ∀ g, g ∈ d.mutables ↔ g ∈ c.mutables := by
  have hnot : ¬ ∃ e ∈ c.referenced, gone e := fun ⟨e, he, hg⟩ => hnone e he hg
  refine ⟨fun r => ?_, fun g => ?_⟩
  · rw [h.referenced, or_iff_left fun hx => hnot hx.1]
    exact ⟨And.right, fun hr => ⟨hnone r hr, hr⟩⟩
  · rw [h.mutables, or_iff_left fun hx => hnot hx.1]

/-- A cluster that has not referenced one that is dissolved stays as it is. -/
theorem untouched (h : c.Sheds s t gone d) (hnew : ¬ gone r) (hr : r ∉ d.referenced) :
    c.Sheds s t (fun x => x = r ∨ gone x) d := by
  have hnot := mt (h.referenced r).mpr hr
  rw [not_and, not_or] at hnot
  obtain ⟨hc, hleads⟩ := hnot hnew
  have htouched : (∃ e ∈ c.referenced, e = r ∨ gone e) ↔ ∃ e ∈ c.referenced, gone e := by
    refine exists_congr fun e => and_congr_right fun he => or_iff_right ?_
    intro hroot
    exact hc (hroot ▸ he)
  refine ⟨h.root, h.members, fun x => ?_, fun g => ?_⟩
  · rw [htouched]
    constructor
    · intro hx
      obtain ⟨hg, hcases⟩ := (h.referenced x).mp hx
      exact ⟨not_or.mpr ⟨fun he => hr (he ▸ hx), hg⟩, hcases⟩
    · intro hx
      exact (h.referenced x).mpr ⟨(not_or.mp hx.1).2, hx.2⟩
  · rw [htouched, h.mutables]
    refine or_congr Iff.rfl (and_congr_right fun ht => and_congr_right fun hg => ?_)
    refine forall_congr' fun x => imp_congr_right fun hx => (or_iff_right ?_).symm
    intro hroot
    exact hleads ⟨ht, g, hg, hroot ▸ hx⟩

/-- A cluster that has referenced one that is dissolved looks at all its references again. -/
theorem renoted (h : c.Sheds s t gone d) (hr : r ∈ d.referenced) (hd : d.referenced.Nodup)
    (ht : t'.Tidy) (hleads : ∀ g, c.Leads s t' g ↔ c.Leads s t g)
    (hroot : ∀ g x, t'.rootOf g = some x ↔ t.rootOf g = some x ∧ ¬ (x = r ∨ gone x))
    (hnoted : Noted s t' d.objects { d with referenced := swapErase d.referenced r } d') :
    c.Sheds s t (fun x => x = r ∨ gone x) d' := by
  have hnone : ∀ g, t'.rootOf g = none ↔ ∀ x, t.rootOf g = some x → x = r ∨ gone x := by
    intro g
    rw [Option.eq_none_iff_forall_ne_some]
    refine forall_congr' fun x => ?_
    rw [ne_eq, hroot, not_and, not_not]
  have hswap := (swapErase_spec hd hr).2
  have hobjects : ({ d with referenced := swapErase d.referenced r } : Cluster).objects =
      c.objects := h.objects
  have hd' : ∀ g, ({ d with referenced := swapErase d.referenced r } : Cluster).Leads s t' g ↔
      c.Leads s t g := fun g =>
    (Leads.congr hobjects (fun _ _ => Iff.rfl) (fun _ => Iff.rfl) fun _ => rfl).trans (hleads g)
  -- the cluster has referenced this one, or one that went before
  have htouched : ∃ e ∈ c.referenced, e = r ∨ gone e := by
    rcases ((h.referenced r).mp hr).2 with hc | ⟨⟨e, he, hg⟩, -⟩
    · exact ⟨r, hc, .inl rfl⟩
    · exact ⟨e, he, .inr hg⟩
  refine ⟨hnoted.root.trans h.root, hnoted.members.trans h.members, fun x => ?_, fun g => ?_⟩
  · rw [hnoted.referenced_iff rfl ht, hswap, h.referenced, and_iff_right htouched]
    constructor
    · rintro (⟨⟨hx, hc | ⟨-, g, hg, hgr⟩⟩, hne⟩ | ⟨g, hg, hgr⟩)
      · exact ⟨not_or.mpr ⟨hne, hx⟩, .inl hc⟩
      · exact ⟨not_or.mpr ⟨hne, hx⟩, .inr ⟨g, hg, hgr⟩⟩
      · obtain ⟨hgr, hx⟩ := (hroot g x).mp hgr
        exact ⟨hx, .inr ⟨g, (hd' g).mp hg, hgr⟩⟩
    · rintro ⟨hx, hc | ⟨g, hg, hgr⟩⟩
      · obtain ⟨hne, hx⟩ := not_or.mp hx
        exact .inl ⟨⟨hx, .inl hc⟩, hne⟩
      · exact .inr ⟨g, (hd' g).mpr hg, (hroot g x).mpr ⟨hgr, hx⟩⟩
  · rw [hnoted.mutables_iff rfl ht, h.mutables, and_iff_right htouched, hd', hnone]
    constructor
    · rintro ((hc | ⟨-, hg, hall⟩) | hg)
      · exact .inl hc
      · exact .inr ⟨hg, fun x hx => .inr (hall x hx)⟩
      · exact .inr hg
    · rintro (hc | hg)
      · exact .inl (.inl hc)
      · exact .inr hg

/-- One more cluster is dissolved. -/
theorem refresh (h : c.Sheds s t gone d) (hnew : ¬ gone r) (hd : d.referenced.Nodup)
    (ht : t'.Tidy) (hleads : ∀ g, c.Leads s t' g ↔ c.Leads s t g)
    (hroot : ∀ g x, t'.rootOf g = some x ↔ t.rootOf g = some x ∧ ¬ (x = r ∨ gone x))
    (hR : d.Refreshed s t' r d') : c.Sheds s t (fun x => x = r ∨ gone x) d' := by
  unfold Refreshed at hR
  by_cases hr : r ∈ d.referenced
  · rw [if_pos hr] at hR
    exact h.renoted hr hd ht hleads hroot hR
  · rw [if_neg hr] at hR
    subst hR
    exact h.untouched hnew hr

end Sheds

end Cluster

def Object.fate (gone : List Handle) (h : Handle) (o : Object) : Object :=
  if h ∈ gone then o.disband else if ∃ r ∈ gone, o.owner = some r then o.release else o

def Clusters.survivors (cs : Clusters) (t : Table) (root : Handle) : List Handle :=
  match cs.get? root with
  | some c => c.members.filter fun h => t.has h .reachableInCluster
  | none => []

namespace Object

variable {s : Schema} {o : Object} {gone : List Handle} {h : Handle}

theorem fate_congr {gone' : List Handle} (hg : ∀ r, r ∈ gone ↔ r ∈ gone') :
    o.fate gone h = o.fate gone' h := by
  simp only [fate, hg]

theorem fate_nil : o.fate [] h = o := by
  simp [fate]

theorem thins_fate {dead : Handle → Prop} : o.Thins s dead (o.fate gone h) := by
  unfold fate
  split
  · exact o.thins_disband
  · split
    · exact o.thins_release
    · exact .refl o

theorem has_fate {f : Flag} (h1 : f ≠ .unreachable) (h2 : f ≠ .clusterRoot)
    (h3 : f ≠ .noStrongReference) : (o.fate gone h).has f = o.has f := by
  unfold fate
  split
  · simp [disband, Ne.symm h2, Ne.symm h3]
  · split
    · exact o.has_release h1 h3
    · rfl

/-- One more cluster is dissolved. -/
theorem fate_cons {c : Cluster} (hnew : c.root ∉ gone) (hroot : h = c.root → o.owner = none)
    (hmember : h ∈ c.members ↔ o.owner = some c.root) (hgone : h ∈ gone → o.owner = none) :
    c.fate h (o.fate gone h) = o.fate (c.root :: gone) h := by
  by_cases he : h = c.root
  · have hsame : o.fate gone h = o := by
      simp [fate, he, hnew, hroot he]
    rw [hsame, Cluster.fate, if_pos he, fate, if_pos (by simp [he])]
  · by_cases hm : h ∈ c.members
    · have hown := hmember.mp hm
      have hnot : h ∉ gone := by
        intro hg
        rw [hgone hg] at hown
        cases hown
      have hsame : o.fate gone h = o := by
        simp [fate, hnot, hown, hnew]
      rw [hsame, Cluster.fate, if_neg he, if_pos hm, fate, if_neg (by simp [he, hnot]),
        if_pos ⟨c.root, List.mem_cons_self .., hown⟩]
    · have hown := mt hmember.mpr hm
      rw [Cluster.fate, if_neg he, if_neg hm]
      simp [fate, he, hown]

end Object

namespace Table

variable {s : Schema} {t t' : Table} {cs : Clusters} {gone : List Handle} {g h x : Handle}

theorem Frame.disband (c : Cluster) (t : Table) : t.Frame (c.disband t) := by
  have hfold : ∀ (l : List Handle) (t : Table), t.Frame (l.foldl freeMember t) := by
    intro l
    induction l with
    | nil => exact .refl
    | cons h rest ih => exact fun t => (Frame.modify t h Object.release).trans (ih _)
  exact (Frame.modify t c.root Object.disband).trans (hfold c.members _)

variable (ev : t.Evolves (fun h o o' => o' = o.fate gone h) t')
include ev

theorem has_of_fate {f : Flag} (h1 : f ≠ .unreachable) (h2 : f ≠ .clusterRoot)
    (h3 : f ≠ .noStrongReference) (h : Handle) : t'.has h f = t.has h f :=
  ev.has_eq (fun _ _ _ _ he => he ▸ Object.has_fate h1 h2 h3) h

theorem live_of_fate : (∃ o, t'.get? g = some o) ↔ ∃ o, t.get? g = some o := by
  constructor
  · rintro ⟨o', ho'⟩
    obtain ⟨o, ho, -⟩ := ev.back ho'
    exact ⟨o, ho⟩
  · rintro ⟨o, ho⟩
    obtain ⟨o', ho', -⟩ := ev.kept g o ho
    exact ⟨o', ho'⟩

theorem edge_of_fate (hs : s.Regular) (hfit : ∀ h o, t.get? h = some o → s.Fits o) {k : Strength} :
    Edge s t' h k g ↔ Edge s t h k g := by
  have hthin : ∀ h (o o' : Object), o' = o.fate gone h → o.Thins s (fun _ => False) o' :=
    fun _ _ _ he => he ▸ Object.thins_fate
  exact ⟨fun he => he.back hs hfit ev hthin, fun he => he.stays hs hfit ev hthin id⟩

/-- The objects of the dissolved clusters belong to none any more. -/
theorem rootOf_of_fate (he : Enrolled t cs) (hgone : ∀ r ∈ gone, ∃ c ∈ cs.list, c.root = r) :
    t'.rootOf g = some x ↔ t.rootOf g = some x ∧ x ∉ gone := by
  cases hg : t.get? g with
  | none => simp [rootOf, hg, ev.gone g hg]
  | some o =>
    obtain ⟨o', ho', rfl⟩ := ev.kept g o hg
    rw [rootOf_eq hg, rootOf_eq ho', Object.fate]
    split
    · rename_i hm
      obtain ⟨c, hc, rfl⟩ := hgone g hm
      obtain ⟨p, hp, hf, hn⟩ := he.root c hc
      rw [hg] at hp
      cases hp
      simp only [Object.disband, Object.owner_clear, Object.has_clear, hn, hf]
      simp only [Option.none_or, if_true, Option.some.injEq]
      constructor
      · simp
      · rintro ⟨rfl, hnot⟩
        exact absurd hm hnot
    · rename_i hm
      split
      · rename_i hown
        obtain ⟨r, hr, hown⟩ := hown
        rw [o.owner_release, o.has_release (by decide) (by decide), he.not_root_of_owner hg hown, hown]
        simp only [Option.some_or, Option.some.injEq]
        constructor
        · simp
        · rintro ⟨rfl, hnot⟩
          exact absurd hr hnot
      · rename_i hown
        refine ⟨fun hr => ⟨hr, fun hx => ?_⟩, And.left⟩
        rcases Option.or_eq_some_iff.mp hr with ho | ⟨-, ho⟩
        · exact hown ⟨x, hx, ho⟩
        · split at ho
          · cases ho
            exact hm hx
          · cases ho

end Table

namespace Clusters

variable {s : Schema} {keeping : Bool} {good : Handle → Prop} {weak : Site → Prop}
  {t t₀ : Table} {cs cs' cs₀ : Clusters} {survivors gone roots : List Handle} {c : Cluster}
  {r : Handle} {found last : List Handle × Table × Clusters}

/-- Dissolving a dead cluster and listing the members that survive. -/
theorem dissolveInto_spec (p : Tracing s cs keeping good (· ∈ survivors) weak t)
    (hfree : ∀ h ∈ survivors, t.Free h) (hc : c ∈ cs.list) (hu : t.isUnreachable c.root = true) :
    Yields (dissolveInto s (survivors, t, cs) c.root) fun found =>
      found.1 = survivors ++ c.members.filter (fun h => t.has h .reachableInCluster) ∧
      found.2.1 = c.disband t ∧
      Becomes (fun d d' => d.Refreshed s (c.disband t) c.root d') (cs.erase c.root) found.2.2 ∧
      Tracing s found.2.2 keeping good (· ∈ found.1) weak found.2.1 ∧
      ∀ h ∈ found.1, found.2.1.Free h := by
  have ho := p.orderly
  unfold dissolveInto
  refine (p.dissolve_spec hc hu hfree).bind ?_
  rintro ⟨c?, t', cs'⟩ _ ⟨hsome, htab, hb, htracing⟩
  dsimp only at hsome htab hb htracing
  subst hsome
  subst htab
  have halive : (c.members.filter fun h => (c.disband t).contains h &&
      !(c.disband t).isUnreachable h) = c.members.filter fun h => t.has h .reachableInCluster := by
    refine List.filter_congr fun h hm => Bool.eq_iff_iff.mpr ?_
    have hiff := mem_alive ho hc (h := h)
    rwa [List.mem_filter, and_congr_right_iff, imp_iff_right hm] at hiff
  have hmem : ∀ h, h ∈ survivors ++ c.members.filter (fun h => t.has h .reachableInCluster) ↔
      h ∈ survivors ∨ h ∈ c.members ∧ t.has h .reachableInCluster = true := fun h => by
    rw [List.mem_append, List.mem_filter]
  dsimp only
  rw [halive]
  refine ⟨rfl, rfl, hb, htracing.congr fun h => (hmem h).symm, fun h hh => ?_⟩
  rcases (hmem h).mp hh with hh | ⟨hm, hr⟩
  · exact free_disband ho hc hu (hfree h hh)
  · exact free_released ho hc hm hr

structure Scattered (s : Schema) (keeping : Bool) (good : Handle → Prop) (weak : Site → Prop)
    (t₀ : Table) (cs₀ : Clusters) (gone : List Handle) (found : List Handle × Table × Clusters) :
    Prop where
  tracing : Tracing s found.2.2 keeping good (· ∈ found.1) weak found.2.1
  free : ∀ h ∈ found.1, found.2.1.Free h
  frame : t₀.Frame found.2.1
  table : t₀.Evolves (fun h o o' => o' = o.fate gone h) found.2.1
  roots : (found.2.2.list.map (·.root)).Perm ((cs₀.list.map (·.root)).filter (· ∉ gone))
  clusters : ∀ d ∈ found.2.2.list, ∃ c ∈ cs₀.list, c.Sheds s t₀ (· ∈ gone) d
  survivors : found.1.Perm (gone.flatMap (cs₀.survivors t₀))

namespace Scattered

theorem start (p : Tracing s cs keeping good (fun _ => False) weak t) :
    Scattered s keeping good weak t cs [] ([], t, cs) := by
  refine ⟨p.congr fun x => by simp, by simp, .refl t, .refl fun h o _ => Object.fate_nil.symm, ?_,
    fun c hc => ⟨c, hc, (Cluster.Sheds.refl c).congr fun r => by simp⟩, .refl _⟩
  rw [List.filter_eq_self.mpr fun r _ => by simp]

theorem congr {gone' : List Handle} (b : Scattered s keeping good weak t₀ cs₀ gone found)
    (hp : gone.Perm gone') : Scattered s keeping good weak t₀ cs₀ gone' found := by
  have hmem : ∀ r, r ∈ gone ↔ r ∈ gone' := fun r => hp.mem_iff
  refine ⟨b.tracing, b.free, b.frame, b.table.mono fun h o o' _ he => ?_, ?_, fun d hd => ?_,
    b.survivors.trans (hp.flatMap_right _)⟩
  · rw [he, Object.fate_congr hmem]
  · simp only [← hmem]
    exact b.roots
  · obtain ⟨c, hc, hcd⟩ := b.clusters d hd
    exact ⟨c, hc, hcd.congr hmem⟩

theorem alike (b : Scattered s keeping good weak t₀ cs₀ gone (survivors, t, cs))
    (a : cs.Alike cs') : Scattered s keeping good weak t₀ cs₀ gone (survivors, t, cs') := by
  refine ⟨b.tracing.alike a, b.free, b.frame, b.table, a.roots.symm.trans b.roots, fun d hd => ?_,
    b.survivors⟩
  obtain ⟨e, he, hed⟩ := a.back d hd
  obtain ⟨c, hc, hce⟩ := b.clusters e he
  exact ⟨c, hc, hce.alike hed⟩

section

variable (ho₀ : Orderly s t₀ cs₀) (b : Scattered s keeping good weak t₀ cs₀ gone (survivors, t, cs))
include ho₀ b

/-- The root of a cluster that is still to come is there as it was. -/
theorem get?_root (hc : c ∈ cs₀.list) (hnew : c.root ∉ gone) : t.get? c.root = t₀.get? c.root := by
  obtain ⟨o, ho, -, hn⟩ := ho₀.enrolled.root c hc
  obtain ⟨o', ho', he⟩ := b.table.kept _ o ho
  rw [ho, ho', he, Object.fate, if_neg hnew, if_neg (by simp [hn])]

variable (hgone : ∀ r ∈ gone, ∃ c ∈ cs₀.list, c.root = r)
include hgone

/-- One more cluster is broken up. -/
theorem evolves_disband (hc : c ∈ cs.list) (hnew : c.root ∉ gone) :
    t₀.Evolves (fun h o o' => o' = o.fate (c.root :: gone) h) (c.disband t) := by
  have he := b.tracing.orderly.enrolled
  have he₀ := ho₀.enrolled
  obtain ⟨c₀, hc₀, hshed⟩ := b.clusters c hc
  refine b.table.trans (c.disband_evolves (he.nodup c hc).1 (he.root_not_member hc hc) t) ?_
  rintro h o _ _ ho rfl rfl
  refine Object.fate_cons hnew (fun hroot => ?_) ?_ fun hg => ?_
  · subst hroot
    exact he₀.owner_root hc₀ (hshed.root ▸ ho)
  · rw [hshed.members, hshed.root]
    exact he₀.mem_members_iff hc₀ ho
  · obtain ⟨d, hd, rfl⟩ := hgone h hg
    exact he₀.owner_root hd ho

/-- The clusters that are left have shed the one that was broken up. -/
theorem sheds_disband (hc : c ∈ cs.list) (hnew : c.root ∉ gone) {d d' : Cluster}
    (hd : d ∈ cs.list) (hrefreshed : d.Refreshed s (c.disband t) c.root d') :
    ∃ d₀ ∈ cs₀.list, d₀.Sheds s t₀ (· ∈ c.root :: gone) d' := by
  have hev := evolves_disband ho₀ b hgone hc hnew
  have hgone' : ∀ r ∈ c.root :: gone, ∃ e ∈ cs₀.list, e.root = r := by
    intro r hr
    rcases List.mem_cons.mp hr with rfl | hr
    · obtain ⟨c₀, hc₀, hshed⟩ := b.clusters c hc
      exact ⟨c₀, hc₀, hshed.root.symm⟩
    · exact hgone r hr
  obtain ⟨d₀, hd₀, hshed⟩ := b.clusters d hd
  refine ⟨d₀, hd₀, ?_⟩
  have hleads : ∀ g, d₀.Leads s (c.disband t) g ↔ d₀.Leads s t₀ g := fun g =>
    Cluster.Leads.congr rfl (fun h g => Table.edge_of_fate hev ho₀.regular ho₀.fits)
      (fun g => Table.live_of_fate hev) fun g => hev.isPermanent g
  have hroot : ∀ g x, (c.disband t).rootOf g = some x ↔
      t₀.rootOf g = some x ∧ ¬ (x = c.root ∨ x ∈ gone) := fun g x => by
    rw [Table.rootOf_of_fate hev ho₀.enrolled hgone', List.mem_cons]
  have hmutables := (b.tracing.orderly.enrolled.nodup d hd).2.1
  refine (hshed.refresh hnew hmutables (hev.tidy ho₀.tidy) hleads hroot hrefreshed).congr fun r => ?_
  rw [List.mem_cons]

/-- A dead cluster is dissolved. -/
theorem step (hc : c ∈ cs.list) (hnew : c.root ∉ gone) (hu : t.isUnreachable c.root = true) :
    Yields (dissolveInto s (survivors, t, cs) c.root)
      (Scattered s keeping good weak t₀ cs₀ (c.root :: gone)) := by
  obtain ⟨c₀, hc₀, hshed⟩ := b.clusters c hc
  have hev := evolves_disband ho₀ b hgone hc hnew
  refine (dissolveInto_spec b.tracing b.free hc hu).mono ?_
  rintro ⟨survivors', t', cs'⟩ ⟨hsurvivors, htab, hb, htracing, hfree⟩
  dsimp only at hsurvivors htab hb htracing hfree
  subst htab
  refine ⟨htracing, hfree, b.frame.trans (.disband c t), hev, ?_, fun d' hd' => ?_, ?_⟩
  · have herase : (cs.erase c.root).list.map (·.root) =
        (cs.list.map (·.root)).filter (· != c.root) := by
      rw [erase, List.filter_map]
      rfl
    rw [hb.roots, herase]
    refine (b.roots.filter _).trans (.of_eq ?_)
    rw [List.filter_filter]
    refine List.filter_congr fun r _ => Bool.eq_iff_iff.mpr ?_
    simp
  · obtain ⟨d, hd, -, hrefreshed, -⟩ := hb.back_erase hd'
    exact sheds_disband ho₀ b hgone hc hnew hd hrefreshed
  · have hsame : (c.members.filter fun h => t.has h .reachableInCluster) =
        cs₀.survivors t₀ c.root := by
      rw [Clusters.survivors, hshed.root, Clusters.get?_of_mem ho₀.enrolled.distinct hc₀,
        hshed.members]
      refine List.filter_congr fun h _ => ?_
      exact Table.has_of_fate b.table (by decide) (by decide) (by decide) h
    dsimp only
    rw [hsurvivors, hsame, List.flatMap_cons]
    exact List.perm_append_comm.trans (b.survivors.append_left _)

end

end Scattered

/-- Dissolving dead clusters, in whatever order. The induction is on the run. -/
theorem Scatters.scattered (run : Scatters s roots found last) (ho₀ : Orderly s t₀ cs₀)
    (hgone : ∀ r ∈ gone, ∃ c ∈ cs₀.list, c.root = r) (hdistinct : roots.Nodup)
    (hdead : ∀ r ∈ roots, r ∉ gone ∧ ∃ c ∈ cs₀.list, c.root = r ∧ t₀.isUnreachable r = true)
    (b : Scattered s keeping good weak t₀ cs₀ gone found) :
    Scattered s keeping good weak t₀ cs₀ (roots ++ gone) last := by
  induction run generalizing gone with
  | done same => exact b.alike same
  | @next roots rest survivors r t cs cs' found last order same dissolve _ ih =>
    have b' := b.alike same
    obtain ⟨hnot, hdist⟩ := List.nodup_cons.mp (order.nodup_iff.mp hdistinct)
    obtain ⟨hnew, c₀, hc₀, rfl, hu⟩ := hdead r (order.mem_iff.mpr (List.mem_cons_self ..))
    have hmem : c₀.root ∈ cs'.list.map (·.root) :=
      b'.roots.mem_iff.mpr (List.mem_filter.mpr ⟨List.mem_map_of_mem hc₀, by simpa using hnew⟩)
    obtain ⟨c, hc, hroot⟩ := List.mem_map.mp hmem
    have hu' : t.isUnreachable c.root = true := by
      rw [hroot, ← hu, Table.isUnreachable, Table.isUnreachable, Table.has, Table.has,
        b'.get?_root ho₀ hc₀ hnew]
    rw [← hroot] at dissolve hnew hnot
    have hnext := (b'.step ho₀ hgone hc hnew hu').ok dissolve
    have hgone' : ∀ x ∈ c.root :: gone, ∃ d ∈ cs₀.list, d.root = x := by
      intro x hx
      rcases List.mem_cons.mp hx with rfl | hx
      · exact ⟨c₀, hc₀, hroot.symm⟩
      · exact hgone x hx
    have hlast := ih hgone' hdist (fun x hx => ?_) hnext
    · refine hlast.congr ?_
      rw [← hroot] at order
      exact List.perm_middle.trans (order.symm.append_right gone)
    · obtain ⟨hnot', hdead'⟩ := hdead x (order.mem_iff.mpr (List.mem_cons_of_mem _ hx))
      refine ⟨fun hm => ?_, hdead'⟩
      rcases List.mem_cons.mp hm with rfl | hm
      · exact hnot hx
      · exact hnot' hm

end Clusters

end TracingHeap

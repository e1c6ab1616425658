import TracingHeap.Proofs.Table.Evolution
import TracingHeap.Cluster.Edges
import Mathlib.Data.List.Nodup

namespace TracingHeap

namespace Table

/-- There is an object, and it is not flagged unreachable. -/
def Awake (t : Table) (h : Handle) : Prop := ∃ o, t.get? h = some o ∧ o.isUnreachable = false

/-- The root of the cluster that an object belongs to: its owner, or the object itself. -/
def rootOf (t : Table) (h : Handle) : Option Handle :=
  (t.get? h).bind fun o => o.owner.or (if o.has .clusterRoot then some h else none)

theorem rootOf_eq {t : Table} {h : Handle} {o : Object} (ho : t.get? h = some o) :
    t.rootOf h = o.owner.or (if o.has .clusterRoot then some h else none) := by
  simp [rootOf, ho]

theorem Awake.isUnreachable {t : Table} {h : Handle} (ha : t.Awake h) :
    t.isUnreachable h = false := by
  obtain ⟨o, ho, hu⟩ := ha
  rw [isUnreachable_of_get? ho, hu]

theorem Awake.of_get? {t : Table} {h : Handle} {o : Object} (ha : t.Awake h)
    (ho : t.get? h = some o) : o.isUnreachable = false := by
  obtain ⟨p, hp, hu⟩ := ha
  rw [ho] at hp
  cases hp
  exact hu

end Table

namespace Cluster

/-- The cluster knows of a reference that leaves it: by its target, or by the root of the cluster
that the target belongs to. -/
def Notes (c : Cluster) (t : Table) (g : Handle) : Prop :=
  g ∈ c.mutables ∨ ∃ r ∈ c.referenced, t.rootOf g = some r

theorem encloses_iff {c : Cluster} {h : Handle} : c.encloses h = true ↔ h ∈ c.objects := by
  simp [encloses]

theorem mem_objects {c : Cluster} {h : Handle} : h ∈ c.objects ↔ h = c.root ∨ h ∈ c.members := by
  simp [objects]

end Cluster

/-- The clusters and the objects agree on who belongs where. -/
structure Enrolled (t : Table) (cs : Clusters) : Prop where
  distinct : (cs.list.map (·.root)).Nodup
  root : ∀ c ∈ cs.list, ∃ o, t.get? c.root = some o ∧ o.has .clusterRoot = true ∧ o.owner = none
  registered : ∀ h o, t.get? h = some o → o.has .clusterRoot = true → ∃ c ∈ cs.list, c.root = h
  member : ∀ c ∈ cs.list, ∀ m ∈ c.members, ∃ o, t.get? m = some o ∧ o.owner = some c.root ∧
    o.isUnreachable = false
  listed : ∀ h o r, t.get? h = some o → o.owner = some r → ∃ c ∈ cs.list, c.root = r ∧ h ∈ c.members
  nodup : ∀ c ∈ cs.list, c.members.Nodup ∧ c.referenced.Nodup ∧ c.mutables.Nodup
  pooled : ∀ c ∈ cs.list, ∀ m ∈ c.members, t.isPermanent m = t.isPermanent c.root

/-- What a cluster outside the permanent pool knows of the references that leave it. -/
structure Cluster.Tracks (s : Schema) (t : Table) (cs : Clusters) (c : Cluster) : Prop where
  referenced : ∀ r ∈ c.referenced, ∃ d ∈ cs.list, d.root = r
  mutables : ∀ m ∈ c.mutables, (∃ o, t.get? m = some o) ∧ t.isPermanent m = false
  covered : ∀ h ∈ c.objects, ∀ g, Edge s t h .strong g → t.isPermanent g = false →
    g ∉ c.objects → c.Notes t g

structure Orderly (s : Schema) (t : Table) (cs : Clusters) : Prop where
  regular : s.Regular
  tidy : t.Tidy
  fits : ∀ h o, t.get? h = some o → s.Fits o
  enrolled : Enrolled t cs
  tracked : ∀ c ∈ cs.list, t.isPermanent c.root = false → c.Tracks s t cs
  unkilled : ∀ h o, t.get? h = some o → o.has .rootSet = true → o.has .pendingKill = false

namespace Clusters

variable {cs : Clusters} {c : Cluster} {r : Handle}

theorem mem_of_get? (h : cs.get? r = some c) : c ∈ cs.list ∧ c.root = r := by
  unfold get? at h
  exact ⟨List.mem_of_find?_eq_some h, by simpa using List.find?_some h⟩

/-- Two entries with one root are one entry. -/
theorem eq_of_root (hd : (cs.list.map (·.root)).Nodup) {d : Cluster} (hc : c ∈ cs.list)
    (hd' : d ∈ cs.list) (he : c.root = d.root) : c = d :=
  List.inj_on_of_nodup_map hd hc hd' he

theorem get?_of_mem (hd : (cs.list.map (·.root)).Nodup) (hc : c ∈ cs.list) :
    cs.get? c.root = some c := by
  cases h : cs.get? c.root with
  | none =>
    unfold get? at h
    have := List.find?_eq_none.mp h c hc
    simp at this
  | some d =>
    obtain ⟨hm, hr⟩ := mem_of_get? h
    rw [eq_of_root hd hm hc hr]

theorem get?_eq_none_iff : cs.get? r = none ↔ ∀ c ∈ cs.list, c.root ≠ r := by
  simp [get?, List.find?_eq_none]

end Clusters

namespace Enrolled

variable {t t' : Table} {cs : Clusters} {c : Cluster} {h : Handle} {o : Object}

theorem owner_root (he : Enrolled t cs) (hc : c ∈ cs.list) (ho : t.get? c.root = some o) :
    o.owner = none := by
  obtain ⟨p, hp, -, hn⟩ := he.root c hc
  rw [ho] at hp
  cases hp
  exact hn

/-- A member is not a root. -/
theorem not_root_of_owner (he : Enrolled t cs) {r : Handle} (ho : t.get? h = some o)
    (hr : o.owner = some r) : o.has .clusterRoot = false := by
  cases hf : o.has .clusterRoot with
  | false => rfl
  | true =>
    obtain ⟨c, hc, rfl⟩ := he.registered h o ho hf
    rw [he.owner_root hc ho] at hr
    cases hr

/-- The members of a cluster are the objects that its root owns. -/
theorem mem_members_iff (he : Enrolled t cs) (hc : c ∈ cs.list) (ho : t.get? h = some o) :
    h ∈ c.members ↔ o.owner = some c.root := by
  constructor
  · intro hm
    obtain ⟨p, hp, hown, -⟩ := he.member c hc h hm
    rw [ho] at hp
    cases hp
    exact hown
  · intro hown
    obtain ⟨d, hd, hroot, hm⟩ := he.listed h o c.root ho hown
    exact Clusters.eq_of_root he.distinct hd hc hroot ▸ hm

theorem rootOf_member (he : Enrolled t cs) (hc : c ∈ cs.list) (hm : h ∈ c.members) :
    t.rootOf h = some c.root := by
  obtain ⟨o, ho, hr, -⟩ := he.member c hc h hm
  simp [Table.rootOf_eq ho, hr]

theorem rootOf_root (he : Enrolled t cs) (hc : c ∈ cs.list) : t.rootOf c.root = some c.root := by
  obtain ⟨o, ho, hf, hn⟩ := he.root c hc
  simp [Table.rootOf_eq ho, hf, hn]

theorem rootOf_of_mem (he : Enrolled t cs) (hc : c ∈ cs.list) (hm : h ∈ c.objects) :
    t.rootOf h = some c.root := by
  rcases Cluster.mem_objects.mp hm with rfl | hm
  · exact he.rootOf_root hc
  · exact he.rootOf_member hc hm

/-- The root of an object is registered, and its cluster encloses the object. -/
theorem cluster_of_rootOf (he : Enrolled t cs) {r : Handle} (hr : t.rootOf h = some r) :
    ∃ c ∈ cs.list, c.root = r ∧ h ∈ c.objects := by
  cases ho : t.get? h with
  | none => simp [Table.rootOf, ho] at hr
  | some o =>
    rw [Table.rootOf_eq ho] at hr
    cases hown : o.owner with
    | some r' =>
      rw [hown] at hr
      cases hr
      obtain ⟨c, hc, hroot, hm⟩ := he.listed h o r ho hown
      exact ⟨c, hc, hroot, Cluster.mem_objects.mpr (.inr hm)⟩
    | none =>
      rw [hown] at hr
      cases hf : o.has .clusterRoot with
      | false => simp [hf] at hr
      | true =>
        simp only [hf, if_true, Option.none_or, Option.some.injEq] at hr
        subst hr
        obtain ⟨c, hc, hroot⟩ := he.registered h o ho hf
        exact ⟨c, hc, hroot, Cluster.mem_objects.mpr (.inl hroot.symm)⟩

theorem permanent_objects (he : Enrolled t cs) (hc : c ∈ cs.list) (hm : h ∈ c.objects) :
    t.isPermanent h = t.isPermanent c.root := by
  rcases Cluster.mem_objects.mp hm with rfl | hm
  · rfl
  · exact he.pooled c hc h hm

theorem live_objects (he : Enrolled t cs) (hc : c ∈ cs.list) (hm : h ∈ c.objects) :
    ∃ o, t.get? h = some o := by
  rcases Cluster.mem_objects.mp hm with rfl | hm
  · obtain ⟨o, ho, -⟩ := he.root c hc
    exact ⟨o, ho⟩
  · obtain ⟨o, ho, -⟩ := he.member c hc h hm
    exact ⟨o, ho⟩

/-- The root is not a member of any cluster. -/
theorem root_not_member (he : Enrolled t cs) {d : Cluster} (hc : c ∈ cs.list) (hd : d ∈ cs.list) :
    c.root ∉ d.members := by
  intro hm
  obtain ⟨o, ho, hr, -⟩ := he.member d hd _ hm
  rw [he.owner_root hc ho] at hr
  cases hr

/-- Changes that leave owners and roots alone, and flag no member, keep clusters enrolled. -/
theorem evolves (he : Enrolled t cs) {R : Handle → Object → Object → Prop}
    (ev : t.Evolves R t') (howner : ∀ h o o', t.get? h = some o → R h o o' → o'.owner = o.owner)
    (hroot : ∀ h o o', t.get? h = some o → R h o o' → o'.has .clusterRoot = o.has .clusterRoot)
    (hflag : ∀ h o o', t.get? h = some o → R h o o' → o.owner.isSome → o.isUnreachable = false →
      o'.isUnreachable = false) : Enrolled t' cs := by
  refine ⟨he.distinct, ?_, ?_, ?_, ?_, he.nodup, ?_⟩
  · intro c hc
    obtain ⟨o, ho, hf, hn⟩ := he.root c hc
    obtain ⟨o', ho', hr⟩ := ev.kept _ o ho
    exact ⟨o', ho', (hroot _ o o' ho hr).trans hf, (howner _ o o' ho hr).trans hn⟩
  · intro h o' ho' hf
    obtain ⟨o, ho, hr⟩ := ev.back ho'
    exact he.registered h o ho ((hroot h o o' ho hr).symm.trans hf)
  · intro c hc m hm
    obtain ⟨o, ho, hn, hu⟩ := he.member c hc m hm
    obtain ⟨o', ho', hr⟩ := ev.kept _ o ho
    refine ⟨o', ho', (howner _ o o' ho hr).trans hn, hflag _ o o' ho hr ?_ hu⟩
    rw [hn]
    rfl
  · intro h o' r ho' hn
    obtain ⟨o, ho, hr⟩ := ev.back ho'
    exact he.listed h o r ho ((howner h o o' ho hr).symm.trans hn)
  · intro c hc m hm
    rw [ev.isPermanent, ev.isPermanent]
    exact he.pooled c hc m hm

end Enrolled

namespace Table

theorem rootOf_evolves {t t' : Table} {R : Handle → Object → Object → Prop} (ev : t.Evolves R t')
    (howner : ∀ h o o', t.get? h = some o → R h o o' → o'.owner = o.owner)
    (hroot : ∀ h o o', t.get? h = some o → R h o o' → o'.has .clusterRoot = o.has .clusterRoot)
    (h : Handle) : t'.rootOf h = t.rootOf h := by
  cases ho : t.get? h with
  | none => simp [rootOf, ho, ev.gone h ho]
  | some o =>
    obtain ⟨o', ho', hr⟩ := ev.kept h o ho
    rw [rootOf_eq ho, rootOf_eq ho', howner h o o' ho hr, hroot h o o' ho hr]

end Table

/-- Changes that take references away, leave owners, roots and kills alone and flag no member keep
the heap in order. -/
theorem Orderly.evolves {s : Schema} {t t' : Table} {cs : Clusters} (h : Orderly s t cs)
    {R : Handle → Object → Object → Prop} {dead : Handle → Prop} (ev : t.Evolves R t')
    (hthin : ∀ h o o', R h o o' → o.Thins s dead o')
    (howner : ∀ h o o', t.get? h = some o → R h o o' → o'.owner = o.owner)
    (hroot : ∀ h o o', t.get? h = some o → R h o o' → o'.has .clusterRoot = o.has .clusterRoot)
    (hflag : ∀ h o o', t.get? h = some o → R h o o' → o.owner.isSome → o.isUnreachable = false →
      o'.isUnreachable = false)
    (hkill : ∀ h o o', t.get? h = some o → R h o o' →
      (o.has .rootSet = true → o.has .pendingKill = false) →
      o'.has .rootSet = true → o'.has .pendingKill = false) : Orderly s t' cs := by
  refine ⟨h.regular, ev.tidy h.tidy, ?_, h.enrolled.evolves ev howner hroot hflag, ?_, ?_⟩
  · intro g o' ho'
    obtain ⟨o, ho, hr⟩ := ev.back ho'
    exact (hthin g o o' hr).fits (h.fits g o ho)
  · intro c hc hp
    rw [ev.isPermanent] at hp
    have htr := h.tracked c hc hp
    refine ⟨htr.referenced, ?_, ?_⟩
    · intro m hm
      obtain ⟨⟨o, ho⟩, hpm⟩ := htr.mutables m hm
      obtain ⟨o', ho', -⟩ := ev.kept m o ho
      exact ⟨⟨o', ho'⟩, (ev.isPermanent m).trans hpm⟩
    · intro g hg f he hf hout
      rw [ev.isPermanent] at hf
      have := htr.covered g hg f (he.back h.regular h.fits ev hthin) hf hout
      unfold Cluster.Notes at this ⊢
      rwa [Table.rootOf_evolves ev howner hroot]
  · intro g o' ho'
    obtain ⟨o, ho, hr⟩ := ev.back ho'
    exact hkill g o o' ho hr (h.unkilled g o ho)

end TracingHeap

import TracingHeap.Collector.Collection
import TracingHeap.Proofs.Mark.Verdict

namespace TracingHeap

namespace Table

def Drops (s : Schema) (t t' : Table) : Prop :=
  t.Evolves (fun _ o o' => o.Thins s (fun g => t.isUnreachable g = true) o' ∧
    o'.owner = o.owner ∧ o'.flags = o.flags) t'

def Clean (t : Table) (site : Site) : Prop :=
  ∀ g, t.slotAt? site = some (some g) → t.isUnreachable g = false

def WeakClean (s : Schema) (t : Table) (h : Handle) : Prop :=
  ∀ g, Edge s t h .weak g → t.isUnreachable g = false

namespace Drops

variable {s : Schema} {t t' t'' : Table} {h : Handle} {site : Site}

theorem refl (t : Table) : t.Drops s t := Evolves.refl fun _ o _ => ⟨.refl o, rfl, rfl⟩

theorem isUnreachable (d : t.Drops s t') (g : Handle) :
    t'.isUnreachable g = t.isUnreachable g :=
  Evolves.has_eq d (fun _ _ _ _ hr => congrArg (Flags.has · .unreachable) hr.2.2) g

theorem trans (d : t.Drops s t') (e : t'.Drops s t'') : t.Drops s t'' := by
  apply Evolves.trans d e
  intro h o p q _ hp hq
  refine ⟨hp.1.trans hq.1 fun g hg => ?_, hq.2.1.trans hp.2.1, hq.2.2.trans hp.2.2⟩
  rwa [d.isUnreachable] at hg

theorem awake (d : t.Drops s t') (ha : t.Awake h) : t'.Awake h := by
  obtain ⟨o, ho, hu⟩ := ha
  obtain ⟨o', ho', -, -, hflags⟩ := d.kept h o ho
  exact ⟨o', ho', by simpa [Object.isUnreachable, Object.has, hflags] using hu⟩

theorem awake_back (d : t.Drops s t') (ha : t'.Awake h) : t.Awake h := by
  obtain ⟨o', ho', hu⟩ := ha
  obtain ⟨o, ho, -, -, hflags⟩ := d.back ho'
  exact ⟨o, ho, by simpa [Object.isUnreachable, Object.has, hflags] using hu⟩

theorem edge_back (d : t.Drops s t') (hs : s.Regular) (hfit : ∀ h o, t.get? h = some o → s.Fits o)
    {k : Strength} {g : Handle} (he : Edge s t' h k g) : Edge s t h k g :=
  he.back hs hfit d fun _ _ _ hr => hr.1

theorem fits (d : t.Drops s t') (hfit : ∀ h o, t.get? h = some o → s.Fits o) :
    ∀ h o, t'.get? h = some o → s.Fits o := by
  intro h o' ho'
  obtain ⟨o, ho, hthin, -⟩ := d.back ho'
  exact hthin.fits (hfit h o ho)

theorem clean (d : t.Drops s t') (hc : t.Clean site) : t'.Clean site := by
  intro g hslot
  rw [d.isUnreachable]
  exact hc g (d.slotAt?_back (fun _ _ _ hr => hr.1) hslot)

theorem weakClean (d : t.Drops s t') (hs : s.Regular)
    (hfit : ∀ h o, t.get? h = some o → s.Fits o) (hc : t.WeakClean s h) : t'.WeakClean s h := by
  intro g he
  rw [d.isUnreachable]
  exact hc g (d.edge_back hs hfit he)

theorem rootOf (d : t.Drops s t') (h : Handle) : t'.rootOf h = t.rootOf h := by
  apply rootOf_evolves d (fun _ _ _ _ hr => hr.2.1)
  intro h o o' _ hr
  rw [Object.has, Object.has, hr.2.2]

theorem orderly (d : t.Drops s t') {cs : Clusters} (ho : Orderly s t cs) : Orderly s t' cs := by
  have hflag : ∀ f : Flag, ∀ h o o', t.get? h = some o →
      (o.Thins s (fun g => t.isUnreachable g = true) o' ∧ o'.owner = o.owner ∧
        o'.flags = o.flags) → o'.has f = o.has f := by
    intro f h o o' _ hr
    rw [Object.has, Object.has, hr.2.2]
  apply ho.evolves d (fun _ _ _ hr => hr.1) (fun _ _ _ _ hr => hr.2.1) (hflag .clusterRoot)
  · intro h o o' hget hr _ hu
    exact (hflag .unreachable h o o' hget hr).trans hu
  · intro h o o' hget hr hk
    rw [hflag .rootSet h o o' hget hr, hflag .pendingKill h o o' hget hr]
    exact hk

end Drops

theorem clearDead_spec {s : Schema} (found : Table × Nat) (site : Site) :
    found.1.Drops s (clearDead found site).1 ∧ (clearDead found site).1.Clean site := by
  obtain ⟨t, n⟩ := found
  unfold clearDead
  simp only
  split
  · rename_i slot hslot
    split
    · rename_i hdead
      cases slot with
      | none => cases hdead
      | some g =>
        constructor
        · apply Evolves.modify (f := (·.clearSlot site.address)) (fun _ => rfl)
          · intro o ho
            have hs : o.slot? site.address = some (some g) := by
              rw [← hslot, slotAt?, ho]
              rfl
            exact ⟨.clearSlot (fun hf => hf.clearSlot _) hs hdead, rfl, rfl⟩
          · intro h o _ _
            exact ⟨.refl o, rfl, rfl⟩
        · exact fun g' hg' => absurd hg' (t.slotAt?_clearSite_ne site g')
    · rename_i hdead
      refine ⟨.refl t, fun g hg => ?_⟩
      rw [hslot] at hg
      cases hg
      rw [Bool.not_eq_true] at hdead
      exact hdead
  · rename_i hnone
    refine ⟨.refl t, fun g hg => ?_⟩
    rw [hnone] at hg
    cases hg

theorem foldl_clearDead {s : Schema} (sites : List Site) : ∀ found : Table × Nat,
    found.1.Drops s (sites.foldl clearDead found).1 ∧
      ∀ site ∈ sites, (sites.foldl clearDead found).1.Clean site := by
  induction sites with
  | nil =>
    intro found
    exact ⟨.refl _, fun _ hm => (List.not_mem_nil hm).elim⟩
  | cons site rest ih =>
    intro found
    obtain ⟨hfirst, hclean⟩ := clearDead_spec (s := s) found site
    obtain ⟨hrest, hall⟩ := ih (clearDead found site)
    refine ⟨hfirst.trans hrest, fun x hx => ?_⟩
    rcases List.mem_cons.mp hx with he | hx
    · rw [he]
      exact hrest.clean hclean
    · exact hall x hx

structure Rinsed (s : Schema) (t₀ : Table) (h : Handle) (visits left : List Visit)
    (found : Table × Nat) : Prop where
  drops : t₀.Drops s found.1
  clean : ∀ v ∈ visits, v.strength = .weak → v ∈ left ∨ found.1.Clean ⟨h, v.address⟩

/-- Looking at one slot is a step. -/
theorem Rinsed.step {s : Schema} {t₀ : Table} {h : Handle} {visits left : List Visit} {v : Visit}
    {found : Table × Nat} (w : Rinsed s t₀ h visits (v :: left) found) :
    Rinsed s t₀ h visits left (match v.strength with
      | .weak => clearDead found ⟨h, v.address⟩
      | .strong => found) := by
  cases hk : v.strength with
  | strong =>
    refine ⟨w.drops, fun x hx hweak => ?_⟩
    rcases w.clean x hx hweak with hl | hc
    · rcases List.mem_cons.mp hl with he | hl
      · rw [he, hk] at hweak
        cases hweak
      · exact .inl hl
    · exact .inr hc
  | weak =>
    obtain ⟨hnext, hclean⟩ := clearDead_spec (s := s) found ⟨h, v.address⟩
    refine ⟨w.drops.trans hnext, fun x hx hweak => ?_⟩
    rcases w.clean x hx hweak with hl | hc
    · rcases List.mem_cons.mp hl with he | hl
      · rw [he]
        exact .inr hclean
      · exact .inl hl
    · exact .inr (hnext.clean hc)

section

variable {s : Schema} (hs : s.Regular)
include hs

/-- When the walk over an object is through, every weak slot the object still has was met. -/
theorem Rinsed.weakClean {t : Table} {h : Handle} {o : Object} {w : Walk} {found : Table × Nat}
    (ho : t.get? h = some o) (hfit : s.Fits o) (hw : s.walk o = .ok w)
    (r : Rinsed s t h w.visits [] found) : found.1.WeakClean s h := by
  intro g he
  -- the slot was there before, so the walk over the old object has met it
  obtain ⟨o', a, ho', hrep, hslot⟩ := he
  have hthin := (r.drops.of_some ho ho').1
  obtain ⟨w', v, hw', hv, ha, hk⟩ := hthin.reports_back hs hfit hrep hslot
  rw [hw] at hw'
  cases hw'
  rcases r.clean v hv hk with hl | hc
  · cases hl
  · apply hc g
    rw [slotAt?, ho', ha]
    exact hslot

theorem clearDeadWeak_spec {found : Table × Nat}
    (hfit : ∀ h o, found.1.get? h = some o → s.Fits o) (h : Handle) :
    Yields (clearDeadWeak s found h) fun found' =>
      found.1.Drops s found'.1 ∧ found'.1.WeakClean s h := by
  unfold clearDeadWeak
  cases ho : found.1.get? h with
  | none =>
    refine ⟨.refl _, fun g he => ?_⟩
    obtain ⟨o, a, hget, -⟩ := he
    rw [ho] at hget
    cases hget
  | some o =>
    rcases hs.walk_cases (hfit h o ho) with ⟨w, hw, hfault, -⟩ | ⟨f, hf, hover⟩
    · simp only [hw, orFault]
      change Yields (w.foldM _ found) _
      refine Ends.bind (Ends.foldlM (Rinsed s found.1 h w.visits) (fun v left found' r => ?_)
        ⟨.refl _, fun _ hv _ => .inl hv⟩) ?_
      · exact r.step
      · intro found' _ r
        rw [hfault]
        exact ⟨r.drops, r.weakClean hs ho (hfit h o ho) hw⟩
    · simp only [hf, orFault]
      exact hover.not_broken

theorem clearDeadWeakAll_spec {t : Table} (hfit : ∀ h o, t.get? h = some o → s.Fits o)
    (objects : List Handle) :
    Yields (t.clearDeadWeakAll s objects) fun found =>
      t.Drops s found.1 ∧ ∀ h ∈ objects, found.1.WeakClean s h := by
  have hfold : Yields (objects.foldlM (clearDeadWeak s) (t, 0)) _ := Ends.foldlM_each
    (I := fun _ found => t.Drops s found.1) (P := fun h found => found.1.WeakClean s h)
    (fun h _ _ found hdrop => by
      have hfit' := hdrop.fits hfit
      refine (clearDeadWeak_spec hs hfit' h).mono fun found' hnext => ?_
      exact ⟨hdrop.trans hnext.1, hnext.2, fun x hc => hnext.1.weakClean hs hfit' hc⟩)
    (.refl t)
  exact hfold

end

end Table

open Table

/-- The three passes: the slots written down by the trace, the objects of clusters, and the
permanent objects. -/
theorem clearWeak_spec {s : Schema} {t : Table} {cs : Clusters} (ho : Orderly s t cs)
    (met : Array Site) :
    Yields (Collector.clearWeak s cs met t) fun found => t.Drops s found.1 ∧
      (∀ site ∈ met, found.1.Clean site) ∧
      (∀ c ∈ cs.list, ∀ h ∈ c.objects, found.1.WeakClean s h) ∧
      ∀ h, t.isPermanent h = true → found.1.WeakClean s h := by
  have hs := ho.regular
  obtain ⟨hdrop₁, hmet⟩ := foldl_clearDead (s := s) met.toList (t, 0)
  rw [Array.foldl_toList] at hdrop₁ hmet
  have hfit₁ := hdrop₁.fits ho.fits
  unfold Collector.clearWeak
  simp only
  apply (clearDeadWeakAll_spec hs hfit₁ (cs.list.flatMap (·.objects))).bind
  intro clustered _ h₂
  obtain ⟨t₂, n₂⟩ := clustered
  obtain ⟨hdrop₂, hclustered⟩ := h₂
  have hfit₂ := hdrop₂.fits hfit₁
  apply (clearDeadWeakAll_spec hs hfit₂ (t₂.permanent.map (·.handle))).bind
  intro permanent _ h₃
  obtain ⟨t₃, n₃⟩ := permanent
  obtain ⟨hdrop₃, hpermanent⟩ := h₃
  have hdrop₁₂ := hdrop₁.trans hdrop₂
  refine ⟨hdrop₁₂.trans hdrop₃, fun site hsite => ?_, fun c hc h hh => ?_, fun h hp => ?_⟩
  · exact hdrop₃.clean (hdrop₂.clean (hmet site (Array.mem_toList_iff.mpr hsite)))
  · exact hdrop₃.weakClean hs hfit₂ (hclustered h (List.mem_flatMap.mpr ⟨c, hc, hh⟩))
  · intro g he
    have he₂ := hdrop₃.edge_back hs hfit₂ he
    obtain ⟨o, a, hget, -⟩ := he₂
    refine hpermanent h (List.mem_map.mpr ⟨o, ?_, ?_⟩) g he
    · have htidy := hdrop₁₂.tidy ho.tidy
      rw [htidy.mem_permanent, htidy.handle_eq hget]
      exact ⟨hget, (hdrop₁₂.isPermanent h).trans hp⟩
    · exact (hdrop₁₂.tidy ho.tidy).handle_eq hget

/-- After the verdict, when the weak references to flagged objects are gone, the heap is settled. -/
theorem Judged.settled {s : Schema} {keeping : Bool} {good : Handle → Prop} {met : Array Site}
    {t t' : Table} {cs : Clusters} (j : Judged s keeping good (· ∈ met) t cs) (d : t.Drops s t')
    (hmet : ∀ site ∈ met, t'.Clean site)
    (hclustered : ∀ c ∈ cs.list, ∀ h ∈ c.objects, t'.WeakClean s h)
    (hpermanent : ∀ h, t.isPermanent h = true → t'.WeakClean s h) : Settled s t' cs := by
  have ho := j.tracing.orderly
  refine ⟨d.orderly ho, fun c hc => d.awake (j.roots c hc), fun c hc hp m hm => ?_, ?_⟩
  · rw [d.isPermanent] at hp
    exact d.awake (j.mutables hc hp hm)
  · intro h k g he ha hheed
    rw [d.isPermanent] at hheed
    have he' := d.edge_back ho.regular ho.fits he
    have ha' := d.awake_back ha
    cases k with
    | strong =>
      exact d.awake (j.strong ha' (hheed.resolve_left (by decide)) he')
    | weak =>
      -- the target is there, so it is enough that it is not flagged
      have hheed' : t.isPermanent h = false ∨ Strength.weak = .weak ∧ t.Awake h := .inr ⟨rfl, ha'⟩
      obtain ⟨⟨q, hq⟩, hpool⟩ := j.tracing.linked h .weak g he' hheed'
      obtain ⟨q', hq', -⟩ := d.kept g q hq
      have hlive : t'.isUnreachable g = false → t'.Awake g := by
        intro hu
        exact ⟨q', hq', by rwa [isUnreachable_of_get? hq'] at hu⟩
      cases hp : t.isPermanent h with
      | true => exact hlive (hpermanent h hp g he)
      | false =>
        rcases j.cases_of_awake ha' with ⟨hroot, hf⟩ | ⟨c, hc, hm⟩
        · obtain ⟨o', a, hget', hrep, hslot⟩ := he
          obtain ⟨o, hget, hthin, -⟩ := d.back hget'
          have hslot' := hthin.slot_back hslot
          have hrep' := hthin.reports_back ho.regular (ho.fits h o hget) hrep hslot
          have hflag : o.has .clusterRoot = false := by
            rw [rootOf_eq hget, Option.or_eq_none_iff] at hroot
            simpa using hroot.2
          rcases ((j.traced hp hf).seen o a .weak g hget hflag hrep' hslot').1 with
            hpg | hfree | hsite
          · exact d.awake (hpool hpg)
          · exact d.awake hfree.awake
          · apply hlive
            apply hmet ⟨h, a⟩ hsite g
            rw [slotAt?, hget']
            exact hslot
        · exact hlive (hclustered c hc h hm g he)

end TracingHeap

import TracingHeap.Proofs.Trace.Scope
import TracingHeap.Proofs.Collection.WeakClearing

namespace TracingHeap

namespace Table

/-- A slot whose reference is to be nulled: it is reported as weak, by an object that is permanent or not
flagged, and leads to a flagged one. -/
def Stale (s : Schema) (t : Table) (x : Site) : Prop :=
  (t.isPermanent x.object = true ∨ t.Awake x.object) ∧ ∃ o g, t.get? x.object = some o ∧
    s.Reports o x.address .weak ∧ o.slot? x.address = some (some g) ∧ t.isUnreachable g = true

/-- Some slots were emptied, all of them stale, and counted. -/
structure Nulls (s : Schema) (t : Table) (n : Nat) (t' : Table) : Prop extends t.Frame t' where
  drops : t.Drops s t'
  within : ∀ x g, t.slotAt? x = some (some g) → t'.slotAt? x = some none → t.Stale s x
  counted : ∃ sites : List Site, sites.Nodup ∧ sites.length = n ∧
    ∀ x, x ∈ sites ↔ t'.slotAt? x = some none ∧ ∃ g, t.slotAt? x = some (some g)

theorem slotAt?_clearSite_of_ne (t : Table) {x y : Site} (hy : y ≠ x) :
    (t.clearSite x).slotAt? y = t.slotAt? y := by
  obtain ⟨h, a⟩ := y
  rw [slotAt?, slotAt?, clearSite, get?_modify]
  dsimp only
  split
  · rename_i he
    subst he
    have ha : a ≠ x.address := fun ha => hy (by rw [ha])
    cases t.get? x.object with
    | none => rfl
    | some o => simp [Object.slot?_clearSlot, ha]
  · rfl

namespace Drops

variable {s : Schema} {t t' : Table} {x : Site} {g : Handle}

/-- A slot holds what it held, or nothing. -/
theorem slotAt?_cases (d : t.Drops s t') (hs : t.slotAt? x = some (some g)) :
    t'.slotAt? x = some (some g) ∨ t'.slotAt? x = some none := by
  obtain ⟨h, a⟩ := x
  cases ho : t.get? h with
  | none => simp [slotAt?, ho] at hs
  | some o =>
    obtain ⟨o', ho', hthin, -⟩ := d.kept h o ho
    rw [slotAt?_eq ho] at hs
    rw [slotAt?_eq ho']
    rcases hthin.slot a with he | ⟨g', -, -, he⟩
    · exact .inl (he.trans hs)
    · exact .inr he

end Drops

namespace Nulls

variable {s : Schema} {t t' : Table} {n : Nat} {x : Site} {g h : Handle}

theorem refl (t : Table) : t.Nulls s 0 t := by
  refine ⟨.refl t, .refl t, fun x g hs hs' => ?_, [], .nil, rfl, fun x => ?_⟩
  · rw [hs] at hs'
    cases hs'
  · simp only [List.not_mem_nil, false_iff]
    rintro ⟨hs, g, hs'⟩
    rw [hs] at hs'
    cases hs'

/-- One more slot is emptied. -/
theorem clearSite (a : t.Nulls s n t') (hslot : t'.slotAt? x = some (some g)) (hx : t.Stale s x)
    (hdrops : t'.Drops s (t'.clearSite x)) : t.Nulls s (n + 1) (t'.clearSite x) := by
  have hold := a.drops.slotAt?_back (fun _ _ _ hr => hr.1) hslot
  have hempty : (t'.clearSite x).slotAt? x = some none :=
    (hdrops.slotAt?_cases hslot).resolve_left (t'.slotAt?_clearSite_ne x g)
  have hother : ∀ y, y ≠ x → (t'.clearSite x).slotAt? y = t'.slotAt? y :=
    fun y hy => t'.slotAt?_clearSite_of_ne hy
  obtain ⟨sites, hnodup, hlen, hmem⟩ := a.counted
  refine ⟨a.toFrame.trans (.modify t' x.object _), a.drops.trans hdrops, fun y g' hs hs' => ?_,
    x :: sites, List.nodup_cons.mpr ⟨fun hm => ?_, hnodup⟩, by simp [hlen], fun y => ?_⟩
  · by_cases hy : y = x
    · exact hy ▸ hx
    · rw [hother y hy] at hs'
      exact a.within y g' hs hs'
  · have hnone := ((hmem x).mp hm).1
    rw [hslot] at hnone
    cases hnone
  · rw [List.mem_cons]
    by_cases hy : y = x
    · subst hy
      simp [hempty, hold]
    · rw [hother y hy, or_iff_right hy, hmem]

/-- One more slot is looked at. -/
theorem clearDead {found : Table × Nat} (a : t.Nulls s (n + found.2) found.1)
    (hx : ∀ g, found.1.slotAt? x = some (some g) → found.1.isUnreachable g = true → t.Stale s x) :
    t.Nulls s (n + (clearDead found x).2) (clearDead found x).1 := by
  have hdrops := (clearDead_spec (s := s) found x).1
  obtain ⟨t', k⟩ := found
  unfold Table.clearDead at hdrops ⊢
  dsimp only at a hx hdrops ⊢
  cases hslot : t'.slotAt? x with
  | none => exact a
  | some slot =>
    rw [hslot] at hdrops
    dsimp only at hdrops ⊢
    cases slot with
    | none => exact a
    | some g =>
      by_cases hdead : t'.isDeadTarget (some g) = true
      · rw [if_pos hdead] at hdrops ⊢
        exact a.clearSite hslot (hx g hslot hdead) hdrops
      · rw [if_neg hdead]
        exact a

theorem foldl_clearDead (sites : List Site) : ∀ {found : Table × Nat},
    t.Nulls s (n + found.2) found.1 → (∀ x ∈ sites, ∀ t' g, t.Drops s t' →
      t'.slotAt? x = some (some g) → t'.isUnreachable g = true → t.Stale s x) →
    t.Nulls s (n + (sites.foldl Table.clearDead found).2) (sites.foldl Table.clearDead found).1 := by
  induction sites with
  | nil => exact fun a _ => a
  | cons x rest ih =>
    intro found a hx
    exact ih (a.clearDead fun g => hx x (List.mem_cons_self ..) _ g a.drops)
      fun y hy => hx y (List.mem_cons_of_mem _ hy)

section

variable (hs : s.Regular) (hfit : ∀ h o, t.get? h = some o → s.Fits o)
include hs hfit

/-- A weak slot of an object that is heeded may be emptied if it leads to a flagged object. -/
theorem stale_of_reports {o' : Object} {a : Address} (b : t.Drops s t')
    (hheed : t.isPermanent h = true ∨ t.Awake h) (ho' : t'.get? h = some o')
    (hrep : s.Reports o' a .weak) (hslot : t'.slotAt? ⟨h, a⟩ = some (some g))
    (hu : t'.isUnreachable g = true) : t.Stale s ⟨h, a⟩ := by
  obtain ⟨o, ho, hthin, -⟩ := b.back ho'
  rw [slotAt?_eq ho'] at hslot
  refine ⟨hheed, o, g, ho, hthin.reports_back hs (hfit h o ho) hrep hslot, hthin.slot_back hslot, ?_⟩
  rw [← b.isUnreachable, hu]

/-- The slots of one object are looked at. -/
theorem clearDeadWeak {found : Table × Nat} (a : t.Nulls s (n + found.2) found.1)
    (hheed : t.isPermanent h = true ∨ t.Awake h) :
    Yields (clearDeadWeak s found h) fun found' => t.Nulls s (n + found'.2) found'.1 := by
  unfold Table.clearDeadWeak
  cases ho : found.1.get? h with
  | none => exact a
  | some o =>
    rcases hs.walk_cases ((a.drops.fits hfit) h o ho) with ⟨w, hw, hfault, -⟩ | ⟨f, hf, hover⟩
    · simp only [hw, orFault]
      change Yields (w.foldM _ found) _
      refine Ends.bind (Ends.foldlM_mem
        (I := fun found' => found.1.Drops s found'.1 ∧ t.Nulls s (n + found'.2) found'.1)
        (fun v hv found' r => ?_) ⟨.refl _, a⟩) ?_
      · obtain ⟨hdrops, b⟩ := r
        cases hk : v.strength with
        | strong => exact ⟨hdrops, b⟩
        | weak =>
          refine ⟨hdrops.trans (clearDead_spec found' ⟨h, v.address⟩).1, b.clearDead ?_⟩
          intro g hslot hu
          have hrep := Schema.reports_of_visit hw hv
          rw [hk] at hrep
          rw [hdrops.isUnreachable] at hu
          exact stale_of_reports hs hfit a.drops hheed ho hrep
            (hdrops.slotAt?_back (fun _ _ _ hr => hr.1) hslot) hu
      · intro found' _ r
        rw [hfault]
        exact r.2
    · simp only [hf, orFault]
      exact hover.not_broken

/-- The slots of several objects are looked at. -/
theorem clearDeadWeakAll {objects : List Handle} (a : t.Nulls s n t')
    (hheed : ∀ h ∈ objects, t.isPermanent h = true ∨ t.Awake h) :
    Yields (t'.clearDeadWeakAll s objects) fun found => t.Nulls s (n + found.2) found.1 := by
  have hstart : t.Nulls s (n + (t', 0).2) (t', 0).1 := a
  have hfold := Ends.foldlM_mem (f := Table.clearDeadWeak s) (l := objects)
    (I := fun found => t.Nulls s (n + found.2) found.1)
    (fun h hh found b => clearDeadWeak hs hfit b (hheed h hh)) hstart
  exact hfold

end

/-- If no stale slot is left, the slots that were emptied are the stale ones. -/
theorem emptied_iff (a : t.Nulls s n t') (hall : ∀ x, t.Stale s x → t'.slotAt? x = some none)
    (hslot : t.slotAt? x = some (some g)) : t'.slotAt? x = some none ↔ t.Stale s x :=
  ⟨a.within x g hslot, hall x⟩

/-- If no stale slot is left, the table is known, and so is the count. -/
theorem unique {t'' : Table} {m : Nat} (ht : t.Tidy) (a : t.Nulls s n t') (b : t.Nulls s m t'')
    (ha : ∀ x, t.Stale s x → t'.slotAt? x = some none)
    (hb : ∀ x, t.Stale s x → t''.slotAt? x = some none) : t'' = t' ∧ m = n := by
  have hiff : ∀ x g, t.slotAt? x = some (some g) →
      (t''.slotAt? x = some none ↔ t'.slotAt? x = some none) := fun x g hs =>
    (b.emptied_iff hb hs).trans (a.emptied_iff ha hs).symm
  constructor
  · refine ext_get? (a.drops.tidy ht) (b.drops.tidy ht) (a.toFrame.symm.trans b.toFrame)
      (b.drops.boundary.trans a.drops.boundary.symm) fun h => ?_
    cases hg : t.get? h with
    | none => rw [a.drops.gone h hg, b.drops.gone h hg]
    | some o =>
      obtain ⟨p, hp, hthin, hown, hflags⟩ := a.drops.kept h o hg
      obtain ⟨q, hq, hthin', hown', hflags'⟩ := b.drops.kept h o hg
      have hcells : q.cells = p.cells := by
        refine hthin'.cells_ext hthin fun x => ?_
        have hx : ∀ g, o.slot? x = some (some g) → (q.slot? x = some none ↔ p.slot? x = some none) :=
          fun g hs => by
            have h := hiff ⟨h, x⟩ g
            rwa [slotAt?_eq hg, slotAt?_eq hp, slotAt?_eq hq, imp_iff_right hs] at h
        rcases hthin.slot x with e | ⟨g, hs, -, e⟩
        · rcases hthin'.slot x with e' | ⟨g, hs, -, e'⟩
          · rw [e, e']
          · rw [e', (hx g hs).mp e']
        · rw [e, (hx g hs).mpr e]
      have hsame : p.Same q := ⟨hthin'.handle.trans hthin.handle.symm,
        hthin'.classId.trans hthin.classId.symm, hthin'.name.trans hthin.name.symm⟩
      rw [hp, hq, Object.eq_of_same hsame (hflags'.trans hflags.symm) (hown'.trans hown.symm) hcells]
  · obtain ⟨sites, hnodup, hlen, hmem⟩ := a.counted
    obtain ⟨sites', hnodup', hlen', hmem'⟩ := b.counted
    have hperm : sites'.Perm sites := by
      refine (List.perm_ext_iff_of_nodup hnodup' hnodup).mpr fun x => ?_
      rw [hmem, hmem']
      exact and_congr_left fun ⟨g, hs⟩ => hiff x g hs
    rw [← hlen, ← hlen', hperm.length_eq]

/-- In a settled heap whose permanent objects are clean, no slot is left stale. -/
theorem settle {cs : Clusters} (ho : Orderly s t cs) (a : t.Nulls s n t') (hs : Settled s t' cs)
    (hpermanent : ∀ h, t.isPermanent h = true → t'.WeakClean s h) (x : Site) (hx : t.Stale s x) :
    t'.slotAt? x = some none := by
  obtain ⟨hheed, o, g, hget, hrep, hslot, hu⟩ := hx
  refine (a.drops.slotAt?_cases ((slotAt?_eq hget).trans hslot)).resolve_left fun hstays => ?_
  obtain ⟨o', ho', hthin, -⟩ := a.drops.kept _ o hget
  rw [← a.drops.isUnreachable] at hu
  have hstays' : o'.slot? x.address = some (some g) := by
    rwa [← slotAt?_eq ho']
  have hedge : Edge s t' x.object .weak g := ⟨o', x.address, ho',
    hthin.reports_stays ho.regular (ho.fits _ o hget) hrep hstays', hstays'⟩
  rcases hheed with hp | hawake
  · rw [hpermanent _ hp g hedge] at hu
    cases hu
  · rw [(hs.linked _ .weak g hedge (a.drops.awake hawake) (.inl rfl)).isUnreachable] at hu
    cases hu

end Nulls

end Table

open Table

/-- The three passes empty stale slots only. -/
theorem clearWeak_nulls {s : Schema} {t : Table} {cs : Clusters} {met : Array Site}
    (ho : Orderly s t cs) (hroots : ∀ c ∈ cs.list, t.Awake c.root)
    (hmet : ∀ x ∈ met, t.Awake x.object ∧ ∀ o g, t.get? x.object = some o →
      o.slot? x.address = some (some g) → s.Reports o x.address .weak) :
    Yields (Collector.clearWeak s cs met t) fun found => t.Nulls s found.2 found.1 := by
  have hs := ho.regular
  have h₁ : t.Nulls s (0 + (met.toList.foldl clearDead (t, 0)).2)
      (met.toList.foldl clearDead (t, 0)).1 := by
    have hstart : t.Nulls s (0 + (t, 0).2) (t, 0).1 := .refl t
    refine hstart.foldl_clearDead met.toList fun x hx t' g b hslot hu => ?_
    obtain ⟨hawake, hweak⟩ := hmet x (Array.mem_toList_iff.mp hx)
    have hold := b.slotAt?_back (fun _ _ _ hr => hr.1) hslot
    obtain ⟨o, hget, hawake⟩ := hawake
    have hslot' : o.slot? x.address = some (some g) := by
      rw [← slotAt?_eq hget]
      exact hold
    exact ⟨.inr ⟨o, hget, hawake⟩, o, g, hget, hweak o g hget hslot', hslot', by rw [← b.isUnreachable, hu]⟩
  rw [Array.foldl_toList, Nat.zero_add] at h₁
  have hobjects : ∀ h ∈ cs.list.flatMap (·.objects), t.isPermanent h = true ∨ t.Awake h := by
    intro h hh
    obtain ⟨c, hc, hm⟩ := List.mem_flatMap.mp hh
    rcases Cluster.mem_objects.mp hm with rfl | hm
    · exact .inr (hroots c hc)
    · obtain ⟨o, hget, -, hu⟩ := ho.enrolled.member c hc h hm
      exact .inr ⟨o, hget, hu⟩
  unfold Collector.clearWeak
  simp only
  refine (h₁.clearDeadWeakAll hs ho.fits hobjects).bind fun clustered _ h₂ => ?_
  obtain ⟨t₂, n₂⟩ := clustered
  have hpool : ∀ h ∈ t₂.permanent.map (·.handle), t.isPermanent h = true ∨ t.Awake h := by
    intro h hh
    obtain ⟨o, hm, rfl⟩ := List.mem_map.mp hh
    refine .inl ?_
    rw [← h₂.drops.isPermanent]
    exact ((h₂.drops.tidy ho.tidy).mem_permanent.mp hm).2
  refine (h₂.clearDeadWeakAll hs ho.fits hpool).bind fun permanent _ h₃ => ?_
  exact h₃

end TracingHeap

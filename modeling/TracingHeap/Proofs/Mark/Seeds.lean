import TracingHeap.Proofs.Mark.Rounds
import TracingHeap.Proofs.Heap.Settled

namespace TracingHeap

namespace Object

variable {s : Schema} {dead : Handle → Prop} {keep : Flags} {o : Object}

def isSeed (keep : Flags) (o : Object) : Bool :=
  o.has .rootSet || isKept keep (o.clear .reachableInCluster).flags

def seeded (keep : Flags) (o : Object) : Object :=
  let p := o.clear .reachableInCluster
  if o.isSeed keep || o.owner.isSome then p else (p.set .unreachable).set .noStrongReference

theorem thins_seeded (keep : Flags) (o : Object) : o.Thins s dead (o.seeded keep) := by
  unfold seeded
  simp only
  split <;> exact .of_cells ⟨rfl, rfl, rfl⟩ rfl

theorem owner_seeded (keep : Flags) (o : Object) : (o.seeded keep).owner = o.owner := by
  unfold seeded
  simp only
  split <;> rfl

theorem has_seeded {f : Flag} (h1 : f ≠ .unreachable) (h2 : f ≠ .reachableInCluster)
    (h3 : f ≠ .noStrongReference) : (o.seeded keep).has f = o.has f := by
  unfold seeded
  simp only
  split
  · simp [Ne.symm h2]
  · simp [Ne.symm h1, Ne.symm h2, Ne.symm h3]

theorem inCluster_seeded (keep : Flags) (o : Object) :
    (o.seeded keep).has .reachableInCluster = false := by
  unfold seeded
  simp only
  split <;> simp

theorem isUnreachable_seeded (hu : o.isUnreachable = false) :
    (o.seeded keep).isUnreachable = !(o.isSeed keep || o.owner.isSome) := by
  unfold isUnreachable at hu ⊢
  unfold seeded
  simp only
  split
  · rename_i h
    simp [hu, h]
  · rename_i h
    simp [h]

end Object

namespace Table

structure SeededAs (t : Table) (keep : Flags) (h : Handle) (o o' : Object) : Prop where
  permanent : t.isPermanent h = true → o' = o
  collectable : t.isPermanent h = false → o' = o.seeded keep

namespace SeededAs

variable {s : Schema} {t : Table} {dead : Handle → Prop} {keep : Flags} {h : Handle}
  {o o' : Object}

theorem cases (a : t.SeededAs keep h o o') : o' = o ∨ o' = o.seeded keep := by
  cases hp : t.isPermanent h with
  | true => exact .inl (a.permanent hp)
  | false => exact .inr (a.collectable hp)

theorem thins (a : t.SeededAs keep h o o') : o.Thins s dead o' := by
  rcases a.cases with he | he
  · exact he ▸ .refl o'
  · exact he ▸ o.thins_seeded keep

theorem owner (a : t.SeededAs keep h o o') : o'.owner = o.owner := by
  rcases a.cases with he | he
  · rw [he]
  · rw [he, o.owner_seeded]

theorem has (a : t.SeededAs keep h o o') {f : Flag} (h1 : f ≠ .unreachable)
    (h2 : f ≠ .reachableInCluster) (h3 : f ≠ .noStrongReference) : o'.has f = o.has f := by
  rcases a.cases with he | he
  · rw [he]
  · rw [he, Object.has_seeded h1 h2 h3]

end SeededAs

/-- The objects of a stretch of slots, each lying where its handle says, come in the order of their
indices. -/
theorem ascending_handles (l : List (Option Object)) : ∀ b, (∀ i (o : Object),
    l[i]? = some (some o) → o.handle.index = b + i) →
      ((l.filterMap id).map (·.handle)).Pairwise (·.index < ·.index) := by
  induction l with
  | nil =>
    intro b _
    exact .nil
  | cons x rest ih =>
    intro b hl
    have hrest := ih (b + 1) fun i o hi => by
      have := hl (i + 1) o (by simpa using hi)
      omega
    cases x with
    | none => exact hrest
    | some o =>
      refine List.pairwise_cons.mpr ⟨fun g hm => ?_, hrest⟩
      obtain ⟨p, hp, rfl⟩ := List.mem_map.mp hm
      obtain ⟨y, hy, hyp⟩ := List.mem_filterMap.mp hp
      cases hyp
      obtain ⟨i, hi⟩ := List.mem_iff_getElem?.mp hy
      have h0 := hl 0 o rfl
      have h1 := hl (i + 1) p (by simpa using hi)
      dsimp only
      omega

theorem nodup_of_ascending {l : List Handle} (hl : l.Pairwise (·.index < ·.index)) : l.Nodup :=
  hl.imp fun {_ _} hlt he => (Nat.ne_of_lt hlt) (congrArg Handle.index he)

theorem nodup_handles (l : List (Option Object)) (b : Nat) (hl : ∀ i (o : Object),
    l[i]? = some (some o) → o.handle.index = b + i) :
    ((l.filterMap id).map fun o => o.handle).Nodup :=
  nodup_of_ascending (ascending_handles l b hl)

theorem Tidy.ascending_collectable {t : Table} (ht : t.Tidy) :
    (t.collectable.map (·.handle)).Pairwise (·.index < ·.index) := by
  refine ascending_handles _ t.boundary fun i o hi => ht.placed _ o ?_
  rw [List.getElem?_drop, Array.getElem?_toList] at hi
  simp [slot?, hi]

theorem Tidy.nodup_collectable {t : Table} (ht : t.Tidy) :
    (t.collectable.map (·.handle)).Nodup :=
  nodup_of_ascending ht.ascending_collectable

theorem Tidy.mem_handles {t : Table} (ht : t.Tidy) {h : Handle} :
    h ∈ t.collectable.map (·.handle) ↔ (∃ o, t.get? h = some o) ∧ t.isPermanent h = false := by
  rw [List.mem_map]
  constructor
  · rintro ⟨o, hm, rfl⟩
    obtain ⟨hg, hp⟩ := ht.mem_collectable.mp hm
    exact ⟨⟨o, hg⟩, hp⟩
  · rintro ⟨⟨o, hg⟩, hp⟩
    have hh := ht.handle_eq hg
    exact ⟨o, ht.mem_collectable.mpr (by rw [hh]; exact ⟨hg, hp⟩), hh⟩

variable {t : Table} {keep : Flags} {g h : Handle} {o : Object}

def seedAt (t : Table) (h : Handle) (o : Object) (keep : Flags) : Table :=
  if o.isSeed keep || o.owner.isSome then t.clearFlag h .reachableInCluster
  else ((t.clearFlag h .reachableInCluster).setFlag h .unreachable).setFlag h .noStrongReference

theorem Tidy.seedAt (ht : t.Tidy) (h : Handle) (o : Object) (keep : Flags) :
    (t.seedAt h o keep).Tidy := by
  unfold Table.seedAt
  split
  · exact ht.clearFlag h _
  · exact ((ht.clearFlag h _).setFlag h _).setFlag h _

theorem boundary_seedAt (t : Table) (h : Handle) (o : Object) (keep : Flags) :
    (t.seedAt h o keep).boundary = t.boundary := by
  unfold seedAt
  split <;> rfl

theorem get?_seedAt (ho : t.get? h = some o) :
    (t.seedAt h o keep).get? g = if g = h then some (o.seeded keep) else t.get? g := by
  unfold seedAt Object.seeded
  by_cases hg : g = h
  · subst hg
    split <;> simp [setFlag, clearFlag, get?_modify, ho]
  · split <;> simp [setFlag, clearFlag, get?_modify, hg]

end Table

section

variable {keep : Flags} {seeds : Array Handle} {t : Table} {h : Handle} {o : Object}

/-- An object that is flagged already cannot be seeded. -/
theorem seedObject_flagged (ho : t.get? h = some o) (hu : o.isUnreachable = true) :
    seedObject keep (seeds, t) h = .error (.alreadyUnreachable h) := by
  simp only [seedObject, ho, hu]
  rfl

/-- What seeding an object comes to. -/
theorem seedObject_eq (ho : t.get? h = some o) (hu : o.isUnreachable = false) :
    seedObject keep (seeds, t) h =
      if o.has .rootSet && o.has .pendingKill then .error (.fatal (.rootedPendingKill h))
      else .ok (if o.isSeed keep then seeds.push h else seeds, t.seedAt h o keep) := by
  have hroot : (o.clear .reachableInCluster).has .rootSet = o.has .rootSet := by simp
  have hkill : (o.clear .reachableInCluster).has .pendingKill = o.has .pendingKill := by simp
  have howner : (o.clear .reachableInCluster).owner = o.owner := o.owner_clear _
  unfold seedObject Table.seedAt Object.isSeed
  simp only [ho]
  rw [← hroot, ← hkill, ← howner, if_neg (Bool.eq_false_iff.mp hu)]
  cases (o.clear .reachableInCluster).has .rootSet with
  | true => cases (o.clear .reachableInCluster).has .pendingKill <;> rfl
  | false =>
    cases isKept keep (o.clear .reachableInCluster).flags with
    | true => rfl
    | false => cases (o.clear .reachableInCluster).owner <;> rfl

end

/-- Where seeding stands, `left` being the objects still to come. -/
structure Sown (keep : Flags) (t₀ : Table) (left : List Handle) (found : Array Handle × Table) :
    Prop where
  table : t₀.Evolves (fun h o o' => o' =
    if t₀.isPermanent h = true ∨ h ∈ left then o else o.seeded keep) found.2
  awake : ∀ h o, t₀.get? h = some o → t₀.isPermanent h = false → h ∉ left →
    o.isUnreachable = false
  seeds : ∀ h, h ∈ found.1 ↔ t₀.isPermanent h = false ∧ h ∉ left ∧
    ∃ o, t₀.get? h = some o ∧ o.isSeed keep = true
  distinct : left.Nodup
  within : ∀ h ∈ left, (∃ o, t₀.get? h = some o) ∧ t₀.isPermanent h = false

namespace Sown

variable {s : Schema} {keep : Flags} {t₀ : Table} {h : Handle} {left : List Handle}
  {found : Array Handle × Table}

/-- One object is seeded. -/
theorem next (w : Sown keep t₀ (h :: left) found) {o : Object} (ho : t₀.get? h = some o)
    (hu : o.isUnreachable = false) {seeds : Array Handle} {t : Table}
    (htidy : found.2.Tidy → t.Tidy) (hbound : t.boundary = found.2.boundary)
    (hget : ∀ g, t.get? g = if g = h then some (o.seeded keep) else found.2.get? g)
    (hseeds : seeds = if o.isSeed keep then found.1.push h else found.1) :
    Sown keep t₀ left (seeds, t) := by
  obtain ⟨hnot, hdist⟩ := List.nodup_cons.mp w.distinct
  obtain ⟨-, hp⟩ := w.within h (List.mem_cons_self ..)
  refine ⟨⟨hbound.trans w.table.boundary, fun ht => htidy (w.table.tidy ht), ?_, ?_⟩, ?_, ?_, hdist,
    fun g hg => w.within g (List.mem_cons_of_mem _ hg)⟩
  · intro g hg
    have hne : g ≠ h := by
      rintro rfl
      rw [ho] at hg
      cases hg
    rw [hget, if_neg hne]
    exact w.table.gone g hg
  · intro g q hq
    rw [hget]
    by_cases he : g = h
    · subst he
      rw [ho] at hq
      cases hq
      refine ⟨_, if_pos rfl, ?_⟩
      rw [if_neg]
      simp [hp, hnot]
    · rw [if_neg he]
      obtain ⟨q', hq', rfl⟩ := w.table.kept g q hq
      exact ⟨_, hq', by simp [he]⟩
  · intro g q hq hpg hg
    by_cases he : g = h
    · subst he
      rw [ho] at hq
      cases hq
      exact hu
    · exact w.awake g q hq hpg (by simp [he, hg])
  · intro g
    have hold := w.seeds g
    by_cases he : g = h
    · subst he
      have hg : g ∉ found.1 := fun hm => (hold.mp hm).2.1 (List.mem_cons_self ..)
      rw [hseeds]
      constructor
      · intro hm
        split at hm
        · rename_i hseed
          exact ⟨hp, hnot, o, ho, hseed⟩
        · exact absurd hm hg
      · rintro ⟨-, -, q, hq, hseed⟩
        rw [ho] at hq
        cases hq
        rw [if_pos hseed]
        exact Array.mem_push_self
    · have hpush : g ∈ seeds ↔ g ∈ found.1 := by
        rw [hseeds]
        split
        · rw [Array.mem_push]
          simp [he]
        · rfl
      rw [hpush, hold]
      simp [he]

/-- Seeding one object is a step. -/
theorem step (hkill : ∀ h o, t₀.get? h = some o → o.has .rootSet = true →
    o.has .pendingKill = false) (w : Sown keep t₀ (h :: left) found) :
    Yields (seedObject keep found h) (Sown keep t₀ left) := by
  obtain ⟨seeds, t⟩ := found
  obtain ⟨⟨o, ho⟩, -⟩ := w.within h (List.mem_cons_self ..)
  have hget : t.get? h = some o := by
    obtain ⟨o', ho', he⟩ := w.table.kept h o ho
    rw [if_pos (.inr (List.mem_cons_self ..))] at he
    rw [ho', he]
  cases hu : o.isUnreachable with
  | true =>
    rw [seedObject_flagged hget hu]
    exact id
  | false =>
    have hboth : (o.has .rootSet && o.has .pendingKill) = false := by
      cases hr : o.has .rootSet with
      | false => rfl
      | true => exact hkill h o ho hr
    rw [seedObject_eq hget hu, hboth]
    refine w.next ho hu (fun ht => ht.seedAt h o keep) ?_ (fun g => ?_) rfl
    · exact Table.boundary_seedAt t h o keep
    · rw [Table.get?_seedAt hget]

end Sown

/-- Seeding flags exactly the standalone objects and roots that are not seeds. -/
theorem seed_spec {keep : Flags} {t : Table} (ht : t.Tidy)
    (hkill : ∀ h o, t.get? h = some o → o.has .rootSet = true → o.has .pendingKill = false) :
    Yields (seed keep t) fun found =>
      t.Evolves (t.SeededAs (keep.union Flags.keep)) found.2.2 ∧
      (∀ h o, t.get? h = some o → t.isPermanent h = false → o.isUnreachable = false) ∧
      ∀ h, h ∈ found.1 ↔ t.isPermanent h = false ∧
        ∃ o, t.get? h = some o ∧ o.isSeed (keep.union Flags.keep) = true := by
  let all := t.collectable.map (·.handle)
  have hstart : Sown (keep.union Flags.keep) t all (#[], t) := by
    refine ⟨.refl fun h o ho => ?_, fun h o ho hp hn => ?_, fun h => ?_, ht.nodup_collectable,
      fun h hm => ht.mem_handles.mp hm⟩
    · rw [if_pos]
      cases hp : t.isPermanent h with
      | true => exact .inl rfl
      | false => exact .inr (ht.mem_handles.mpr ⟨⟨o, ho⟩, hp⟩)
    · exact absurd (ht.mem_handles.mpr ⟨⟨o, ho⟩, hp⟩) hn
    · constructor
      · intro hm
        simp at hm
      · rintro ⟨hp, hn, o, ho, -⟩
        exact absurd (ht.mem_handles.mpr ⟨⟨o, ho⟩, hp⟩) hn
  have hfold := Ends.foldlM (f := seedObject (keep.union Flags.keep))
    (fun left => Sown (keep.union Flags.keep) t left) (fun h left found w => w.step hkill) hstart
  unfold seed
  refine hfold.bind fun found _ w => ⟨w.table.mono ?_, ?_, ?_⟩
  · intro h o o' _ he
    simp only [List.not_mem_nil, or_false] at he
    exact ⟨fun hp => by rw [he, if_pos hp], fun hp => by rw [he, if_neg (by simp [hp])]⟩
  · exact fun h o ho hp => w.awake h o ho hp List.not_mem_nil
  · intro h
    rw [Array.mem_toList_iff, w.seeds h]
    simp

/-- An object that is seeded joins the seeds, or it does not. -/
theorem seeds_of_seedObject {keep : Flags} {h : Handle} {found found' : Array Handle × Table}
    (hok : seedObject keep found h = .ok found') :
    found'.1 = found.1 ∨ found'.1 = found.1.push h := by
  obtain ⟨seeds, t⟩ := found
  cases ho : t.get? h with
  | none =>
    simp only [seedObject, ho] at hok
    cases hok
    exact .inl rfl
  | some o =>
    cases hu : o.isUnreachable with
    | true =>
      rw [seedObject_flagged ho hu] at hok
      cases hok
    | false =>
      rw [seedObject_eq ho hu] at hok
      split at hok
      · cases hok
      · cases hok
        dsimp only
        split
        · exact .inr rfl
        · exact .inl rfl

/-- The seeds are some of the collectable objects, in their order. -/
theorem seed_sublist {keep : Flags} {t t' : Table} {seeds : List Handle} {n : Nat}
    (hok : seed keep t = .ok (seeds, n, t')) : seeds.Sublist (t.collectable.map (·.handle)) := by
  have hfold : ∀ (l : List Handle) {found found' : Array Handle × Table},
      l.foldlM (seedObject (keep.union Flags.keep)) found = .ok found' →
        found'.1.toList.Sublist (found.1.toList ++ l) := by
    intro l
    induction l with
    | nil =>
      intro found found' hok
      cases hok
      rw [List.append_nil]
    | cons h rest ih =>
      intro found found' hok
      rw [List.foldlM_cons] at hok
      obtain ⟨next, hstep, hok⟩ := except_bind_ok hok
      have hrest := ih hok
      rcases seeds_of_seedObject hstep with hnext | hnext
      · rw [hnext] at hrest
        exact hrest.trans ((List.sublist_cons_self h rest).append_left _)
      · rw [hnext, Array.toList_push, List.append_assoc] at hrest
        exact hrest
  unfold seed at hok
  obtain ⟨found, hrun, hok⟩ := except_bind_ok hok
  cases hok
  exact hfold _ hrun

/-- Every seed is listed once. -/
theorem seed_nodup {keep : Flags} {t t' : Table} {seeds : List Handle} {n : Nat} (ht : t.Tidy)
    (hok : seed keep t = .ok (seeds, n, t')) : seeds.Nodup :=
  ht.nodup_collectable.sublist (seed_sublist hok)

/-- The seeds come in the order of their indices. -/
theorem seed_ascending {keep : Flags} {t t' : Table} {seeds : List Handle} {n : Nat} (ht : t.Tidy)
    (hok : seed keep t = .ok (seeds, n, t')) : seeds.Pairwise (·.index < ·.index) :=
  ht.ascending_collectable.sublist (seed_sublist hok)

/-- Seeding heaps in which the same objects are seeds gives the same list of seeds. -/
theorem seeds_eq {l l' : List Handle} (hl : l.Pairwise (·.index < ·.index))
    (hl' : l'.Pairwise (·.index < ·.index)) (hsame : ∀ h, h ∈ l ↔ h ∈ l') : l = l' := by
  have hperm : l.Perm l' :=
    (List.perm_ext_iff_of_nodup (Table.nodup_of_ascending hl) (Table.nodup_of_ascending hl')).mpr hsame
  refine hperm.eq_of_pairwise (fun a b _ _ hab hba => ?_) hl hl'
  exact absurd hab (Nat.lt_asymm hba)

end TracingHeap

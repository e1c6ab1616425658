import TracingHeap.Proofs.Cluster.Enrollment
import TracingHeap.Cluster.Formation

namespace TracingHeap

namespace HandleSet

theorem mem_missing {s : HandleSet} {l : List Handle} {h : Handle} :
    h ∈ s.missing l ↔ h ∈ l ∧ s.contains h = false := by
  induction l generalizing s with
  | nil => simp [missing]
  | cons a rest ih =>
    simp only [missing]
    split
    · rename_i ha
      rw [ih]
      constructor
      · rintro ⟨hm, hs⟩
        exact ⟨List.mem_cons_of_mem _ hm, hs⟩
      · rintro ⟨hm, hs⟩
        rcases List.mem_cons.mp hm with rfl | hm
        · rw [ha] at hs
          cases hs
        · exact ⟨hm, hs⟩
    · rename_i ha
      rw [List.mem_cons, ih, contains_insert]
      constructor
      · rintro (rfl | ⟨hm, hs⟩)
        · exact ⟨List.mem_cons_self .., by simpa using ha⟩
        · exact ⟨List.mem_cons_of_mem _ hm, (Bool.or_eq_false_iff.mp hs).2⟩
      · rintro ⟨hm, hs⟩
        by_cases he : h = a
        · exact .inl he
        · rcases List.mem_cons.mp hm with rfl | hm
          · exact absurd rfl he
          · exact .inr ⟨hm, by simp [hs, Ne.symm he]⟩

theorem nodup_missing (s : HandleSet) (l : List Handle) : (s.missing l).Nodup := by
  induction l generalizing s with
  | nil => exact .nil
  | cons a rest ih =>
    simp only [missing]
    split
    · exact ih s
    · refine List.nodup_cons.mpr ⟨fun hm => ?_, ih _⟩
      have := (mem_missing.mp hm).2
      simp [contains_insert] at this

end HandleSet

theorem mem_appendNew {list found : List Handle} {h : Handle} :
    h ∈ appendNew list found ↔ h ∈ list ∨ h ∈ found := by
  simp only [appendNew, distinct, List.mem_append, List.mem_filter, HandleSet.mem_missing,
    HandleSet.contains_ofList]
  constructor
  · rintro (hm | ⟨⟨hm, -⟩, -⟩)
    · exact .inl hm
    · exact .inr hm
  · rintro (hm | hm)
    · exact .inl hm
    · by_cases hl : h ∈ list
      · exact .inl hl
      · exact .inr ⟨⟨hm, rfl⟩, by simpa using hl⟩

theorem nodup_appendNew {list : List Handle} (hl : list.Nodup) (found : List Handle) :
    (appendNew list found).Nodup := by
  refine List.nodup_append.mpr ⟨hl, ?_, ?_⟩
  · exact (HandleSet.nodup_missing _ found).filter _
  · rintro a ha b hb rfl
    have := (List.mem_filter.mp hb).2
    simp [ha] at this

namespace Table

variable {t : Table} {g : Handle} {inside : Handle → Bool}

/-- A reference that leaves a cluster for a collectable object leads to the root of the object's
cluster, or to the object. -/
theorem outside?_eq (t : Table) (inside : Handle → Bool) (ht : t.Tidy) {o : Object}
    (hg : t.get? g = some o) : t.outside? inside (some g) =
      if t.isPermanent g = true ∨ inside g = true then none
      else match t.rootOf g with
        | some r => some (.cluster r)
        | none => some (.standalone g) := by
  have hh := ht.handle_eq hg
  by_cases hp : t.isPermanent g = true
  · simp [outside?, hp]
  · by_cases hi : inside g = true
    · simp [outside?, hp, hg, hh, hi]
    · rw [rootOf_eq hg]
      simp only [outside?, hp, hg, hh, hi, Option.bind_eq_bind, Option.bind_some]
      cases o.owner with
      | some r => simp
      | none => cases o.has .clusterRoot <;> simp

theorem outside?_of_get?_none (hg : t.get? g = none) : t.outside? inside (some g) = none := by
  simp [outside?, hg]

/-- A reference leaves a cluster for another one if its target belongs to that. -/
theorem outside?_eq_cluster_iff (ht : t.Tidy) {r : Handle} :
    t.outside? inside (some g) = some (.cluster r) ↔ (∃ o, t.get? g = some o) ∧
      t.isPermanent g = false ∧ inside g = false ∧ t.rootOf g = some r := by
  cases hg : t.get? g with
  | none => simp [outside?_of_get?_none hg]
  | some o =>
    rw [outside?_eq t inside ht hg]
    cases t.isPermanent g <;> cases inside g <;> cases t.rootOf g <;> simp

/-- A reference leaves a cluster for an object that stands alone if the object belongs to no cluster. -/
theorem outside?_eq_standalone_iff (ht : t.Tidy) {m : Handle} :
    t.outside? inside (some g) = some (.standalone m) ↔ m = g ∧ (∃ o, t.get? g = some o) ∧
      t.isPermanent g = false ∧ inside g = false ∧ t.rootOf g = none := by
  cases hg : t.get? g with
  | none => simp [outside?_of_get?_none hg]
  | some o =>
    rw [outside?_eq t inside ht hg]
    cases t.isPermanent g <;> cases inside g <;> cases t.rootOf g <;> simp [eq_comm]

theorem outsideOf_ok {s : Schema} {w : Walk} (ho : t.get? h = some o) (hw : s.walk o = .ok w)
    (hnone : w.fault = none) (inside : Handle → Bool) :
    ∃ found, t.outsideOf s inside h = .ok found ∧ ∀ x, x ∈ found ↔ ∃ v ∈ w.visits,
      v.strength = .strong ∧ (o.slot? v.address).bind (t.outside? inside) = some x := by
  have hcomplete : w.complete = .ok w.visits := by rw [Walk.complete, hnone]
  rw [outsideOf, ho]
  change ∃ found, (s.walk o >>= _) = .ok found ∧ _
  rw [hw]
  change ∃ found, (w.complete.mapError Failure.fault >>= _) = .ok found ∧ _
  rw [hcomplete]
  refine ⟨_, rfl, fun x => ?_⟩
  rw [List.mem_filterMap]
  refine exists_congr fun v => and_congr_right fun _ => ?_
  cases v.strength <;> simp

/-- The outside references of an object are its strong edges seen from the cluster. -/
theorem outsideOf_cases {s : Schema} (hs : s.Regular)
    (hfit : ∀ h o, t.get? h = some o → s.Fits o) (inside : Handle → Bool) (h : Handle) :
    (∃ found, t.outsideOf s inside h = .ok found ∧
        ∀ x, x ∈ found ↔ ∃ g, Edge s t h .strong g ∧ t.outside? inside (some g) = some x) ∨
      ∃ f : Fault, t.outsideOf s inside h = .error (.fault f) ∧ f.IsOverflow := by
  cases ho : t.get? h with
  | none =>
    refine .inl ⟨[], by simp [outsideOf, ho], fun x => ?_⟩
    constructor
    · intro hx
      cases hx
    · rintro ⟨g, ⟨o, a, ho', -⟩, -⟩
      rw [ho] at ho'
      cases ho'
  | some o =>
    rcases hs.walk_cases (hfit h o ho) with ⟨w, hw, hnone, -⟩ | ⟨f, hf, hover⟩
    · obtain ⟨found, hfound, hmem⟩ := outsideOf_ok ho hw hnone inside
      refine .inl ⟨found, hfound, fun x => ?_⟩
      rw [hmem]
      constructor
      · rintro ⟨v, hv, hstrong, hx⟩
        obtain ⟨slot, hslot, hout⟩ := Option.bind_eq_some_iff.mp hx
        cases slot with
        | none => cases hout
        | some g =>
          exact ⟨g, ⟨o, v.address, ho, hstrong ▸ Schema.reports_of_visit hw hv, hslot⟩, hout⟩
      · rintro ⟨g, ⟨o', a, ho', ⟨w', v, hw', hv, rfl, hk⟩, hslot⟩, hout⟩
        rw [ho] at ho'
        cases ho'
        rw [hw] at hw'
        cases hw'
        exact ⟨v, hv, hk, by rw [hslot]; exact hout⟩
    · exact .inr ⟨f, by simp [outsideOf, ho, hf, bind, Except.bind], hover⟩

def Walkable (s : Schema) (t : Table) (h : Handle) : Prop :=
  ∀ o, t.get? h = some o → ∃ w, s.walk o = .ok w

theorem outsideOf_ok_iff {s : Schema} (hs : s.Regular) (hfit : ∀ h o, t.get? h = some o → s.Fits o)
    (inside : Handle → Bool) (h : Handle) :
    (∃ found, t.outsideOf s inside h = .ok found) ↔ t.Walkable s h := by
  constructor
  · rintro ⟨found, hok⟩ o ho
    rw [outsideOf, ho] at hok
    obtain ⟨w, hw, -⟩ := except_bind_ok hok
    exact ⟨w, hw⟩
  · intro hwalk
    cases ho : t.get? h with
    | none => exact ⟨[], by rw [outsideOf, ho]⟩
    | some o =>
      obtain ⟨w, hw⟩ := hwalk o ho
      rcases hs.walk_cases (hfit h o ho) with ⟨w', hw', hnone, -⟩ | ⟨f, hf, -⟩
      · obtain ⟨found, hfound, -⟩ := outsideOf_ok ho hw' hnone inside
        exact ⟨found, hfound⟩
      · rw [hw] at hf
        cases hf

end Table

namespace Cluster

structure Noted (s : Schema) (t : Table) (sources : List Handle) (c c' : Cluster) : Prop where
  root : c'.root = c.root
  members : c'.members = c.members
  nodup_referenced : c.referenced.Nodup → c'.referenced.Nodup
  nodup_mutables : c.mutables.Nodup → c'.mutables.Nodup
  mem_referenced : ∀ r, r ∈ c'.referenced ↔ r ∈ c.referenced ∨
    ∃ h ∈ sources, ∃ g, Edge s t h .strong g ∧ t.outside? c.encloses (some g) = some (.cluster r)
  mem_mutables : ∀ m, m ∈ c'.mutables ↔ m ∈ c.mutables ∨
    ∃ h ∈ sources, ∃ g, Edge s t h .strong g ∧ t.outside? c.encloses (some g) = some (.standalone m)

theorem Noted.objects {s : Schema} {t : Table} {l : List Handle} {c c' : Cluster}
    (h : c.Noted s t l c') : c'.objects = c.objects := by
  simp [Cluster.objects, h.root, h.members]

theorem note_noted {s : Schema} {t : Table} {sources : List Handle} {c : Cluster}
    {found : List Outside} (hf : ∀ x, x ∈ found ↔
      ∃ h ∈ sources, ∃ g, Edge s t h .strong g ∧ t.outside? c.encloses (some g) = some x) :
    c.Noted s t sources (c.note found) := by
  refine ⟨rfl, rfl, fun hn => nodup_appendNew hn _, fun hn => nodup_appendNew hn _, ?_, ?_⟩
  · intro r
    rw [note, mem_appendNew, ← hf, List.mem_filterMap]
    refine or_congr Iff.rfl ⟨?_, fun hx => ⟨_, hx, rfl⟩⟩
    rintro ⟨x, hx, hr⟩
    cases x with
    | cluster r' => cases hr; exact hx
    | standalone m => cases hr
  · intro m
    rw [note, mem_appendNew, ← hf, List.mem_filterMap]
    refine or_congr Iff.rfl ⟨?_, fun hx => ⟨_, hx, rfl⟩⟩
    rintro ⟨x, hx, hr⟩
    cases x with
    | cluster r => cases hr
    | standalone m' => cases hr; exact hx

section

variable {s : Schema} {t : Table} (hs : s.Regular) (hfit : ∀ h o, t.get? h = some o → s.Fits o)
include hs hfit

/-- Noting one object. -/
theorem noteObject_cases (c : Cluster) (h : Handle) :
    (∃ c', c.noteObject s t h = .ok c' ∧ c.Noted s t [h] c') ∨
      ∃ f : Fault, c.noteObject s t h = .error (.fault f) ∧ f.IsOverflow := by
  rcases t.outsideOf_cases hs hfit c.encloses h with ⟨found, hfound, hmem⟩ | ⟨f, hf, hover⟩
  · refine .inl ⟨c.note found, by simp [noteObject, hfound, bind, Except.bind, pure, Except.pure],
      note_noted fun x => ?_⟩
    simp [hmem]
  · exact .inr ⟨f, by simp [noteObject, hf, bind, Except.bind], hover⟩

/-- The outside references of several objects. -/
theorem mapM_outsideOf_cases (inside : Handle → Bool) (l : List Handle) :
    (∃ found, l.mapM (t.outsideOf s inside) = .ok found ∧
        ∀ x, x ∈ found.flatten ↔
          ∃ h ∈ l, ∃ g, Edge s t h .strong g ∧ t.outside? inside (some g) = some x) ∨
      ∃ f : Fault, l.mapM (t.outsideOf s inside) = .error (.fault f) ∧ f.IsOverflow := by
  induction l with
  | nil => exact .inl ⟨[], rfl, by simp⟩
  | cons h rest ih =>
    rcases t.outsideOf_cases hs hfit inside h with ⟨found, hfound, hmem⟩ | ⟨f, hf, hover⟩
    · rcases ih with ⟨others, hothers, hrest⟩ | ⟨f, hf, hover⟩
      · refine .inl ⟨found :: others, ?_, fun x => ?_⟩
        · simp [List.mapM_cons, hfound, hothers, bind, Except.bind, pure, Except.pure]
        · simp [hmem, hrest]
      · exact .inr ⟨f, by simp [List.mapM_cons, hfound, hf, bind, Except.bind], hover⟩
    · exact .inr ⟨f, by simp [List.mapM_cons, hf, bind, Except.bind], hover⟩

/-- Noting every object of a cluster. -/
theorem noteAll_cases (c : Cluster) :
    (∃ c', c.noteAll s t = .ok c' ∧ c.Noted s t c.objects c') ∨
      ∃ f : Fault, c.noteAll s t = .error (.fault f) ∧ f.IsOverflow := by
  have hin : (HandleSet.ofList c.objects).contains = c.encloses :=
    funext fun h => HandleSet.contains_ofList c.objects h
  have hall := mapM_outsideOf_cases hs hfit c.encloses c.objects
  rcases hall with ⟨found, hfound, hmem⟩ | ⟨f, hf, hover⟩
  · refine .inl ⟨c.note found.flatten, ?_, note_noted hmem⟩
    simp [noteAll, hin, hfound, bind, Except.bind, pure, Except.pure]
  · refine .inr ⟨f, ?_, hover⟩
    simp [noteAll, hin, hf, bind, Except.bind]

/-- All objects of a cluster can be walked if their references have been noted. -/
theorem walkable_of_noteAll {c c' : Cluster} (hok : c.noteAll s t = .ok c') :
    ∀ h ∈ c.objects, t.Walkable s h := by
  have hall : ∀ (inside : Handle → Bool) (l : List Handle) (found : List (List Outside)),
      l.mapM (t.outsideOf s inside) = .ok found → ∀ h ∈ l, t.Walkable s h := by
    intro inside l
    induction l with
    | nil => exact fun _ _ h hh => absurd hh List.not_mem_nil
    | cons h rest ih =>
      intro found hok g hg
      rw [List.mapM_cons] at hok
      obtain ⟨first, hfirst, hok⟩ := except_bind_ok hok
      obtain ⟨others, hothers, -⟩ := except_bind_ok hok
      rcases List.mem_cons.mp hg with rfl | hg
      · exact (Table.outsideOf_ok_iff hs hfit inside g).mp ⟨first, hfirst⟩
      · exact ih others hothers g hg
  obtain ⟨found, hfound, -⟩ := except_bind_ok hok
  exact hall _ _ _ hfound

theorem noteAll_of_walkable {c : Cluster}
    (hwalk : ∀ h ∈ c.objects, t.Walkable s h) : ∃ c', c.noteAll s t = .ok c' := by
  have hall : ∀ (inside : Handle → Bool) (l : List Handle), (∀ h ∈ l, t.Walkable s h) →
      ∃ found, l.mapM (t.outsideOf s inside) = .ok found := by
    intro inside l
    induction l with
    | nil => exact fun _ => ⟨[], rfl⟩
    | cons h rest ih =>
      intro hl
      obtain ⟨first, hfirst⟩ := (Table.outsideOf_ok_iff hs hfit inside h).mpr (hl h List.mem_cons_self)
      obtain ⟨others, hothers⟩ := ih fun g hg => hl g (List.mem_cons_of_mem _ hg)
      refine ⟨first :: others, ?_⟩
      rw [List.mapM_cons, hfirst]
      change (rest.mapM (t.outsideOf s inside) >>= _) = _
      rw [hothers]
      rfl
  obtain ⟨found, hfound⟩ := hall (HandleSet.ofList c.objects).contains c.objects hwalk
  refine ⟨c.note found.flatten, ?_⟩
  unfold noteAll
  dsimp only
  rw [hfound]
  rfl

end

/-- What a cluster knows it still knows when more is noted. -/
theorem Noted.notes_mono {s : Schema} {t : Table} {l : List Handle} {c c' : Cluster}
    (h : c.Noted s t l c') {g : Handle} (hn : c.Notes t g) : c'.Notes t g := by
  rcases hn with hm | ⟨r, hr, hroot⟩
  · exact .inl ((h.mem_mutables g).mpr (.inl hm))
  · exact .inr ⟨r, (h.mem_referenced r).mpr (.inl hr), hroot⟩

/-- A noted cluster knows of every reference of the objects that were noted. -/
theorem Noted.notes {s : Schema} {t : Table} {l : List Handle} {c c' : Cluster}
    (h : c.Noted s t l c') (ht : t.Tidy) {source g : Handle} (hm : source ∈ l)
    (he : Edge s t source .strong g) (hg : ∃ o, t.get? g = some o) (hp : t.isPermanent g = false)
    (hout : g ∉ c.objects) : c'.Notes t g := by
  obtain ⟨o, ho⟩ := hg
  have hin : c.encloses g = false := by
    rw [← Bool.not_eq_true, encloses_iff]
    exact hout
  have heq := t.outside?_eq c.encloses ht ho
  rw [hp, hin] at heq
  simp only [Bool.false_eq_true, or_self, if_false] at heq
  cases hroot : t.rootOf g with
  | some r =>
    rw [hroot] at heq
    exact .inr ⟨r, (h.mem_referenced r).mpr (.inr ⟨source, hm, g, he, heq⟩), hroot⟩
  | none =>
    rw [hroot] at heq
    exact .inl ((h.mem_mutables g).mpr (.inr ⟨source, hm, g, he, heq⟩))

/-- A cluster newly noted as referenced is registered. -/
theorem registered_of_outside {t : Table} {cs : Clusters} (ht : t.Tidy) (he : Enrolled t cs)
    {inside : Handle → Bool} {g r : Handle} (ho : t.outside? inside (some g) = some (.cluster r)) :
    t.rootOf g = some r ∧ t.isPermanent g = false ∧ ∃ d ∈ cs.list, d.root = r ∧ g ∈ d.objects := by
  obtain ⟨-, hp, -, hroot⟩ := (Table.outside?_eq_cluster_iff ht).mp ho
  exact ⟨hroot, hp, he.cluster_of_rootOf hroot⟩

/-- An object newly noted as standalone is the target of the reference. -/
theorem eq_of_outside {t : Table} (ht : t.Tidy) {inside : Handle → Bool} {g m : Handle}
    (ho : t.outside? inside (some g) = some (.standalone m)) :
    m = g ∧ t.rootOf g = none ∧ t.isPermanent g = false ∧ ∃ o, t.get? g = some o := by
  obtain ⟨hm, hl, hp, -, hroot⟩ := (Table.outside?_eq_standalone_iff ht).mp ho
  exact ⟨hm, hroot, hp, hl⟩

section

variable {s : Schema} {t t' : Table} {c c' d : Cluster} {g r : Handle}

/-- A strong reference leaves the cluster for a collectable object. -/
structure Leads (s : Schema) (t : Table) (c : Cluster) (g : Handle) : Prop where
  edge : ∃ h ∈ c.objects, Edge s t h .strong g
  live : ∃ o, t.get? g = some o
  collectable : t.isPermanent g = false
  outside : g ∉ c.objects

theorem Leads.congr (hobjects : d.objects = c.objects)
    (hedge : ∀ h g, Edge s t' h .strong g ↔ Edge s t h .strong g)
    (hlive : ∀ g, (∃ o, t'.get? g = some o) ↔ ∃ o, t.get? g = some o)
    (hp : ∀ g, t'.isPermanent g = t.isPermanent g) : d.Leads s t' g ↔ c.Leads s t g := by
  constructor
  · rintro ⟨⟨h, hh, he⟩, hl, hcol, hout⟩
    exact ⟨⟨h, hobjects ▸ hh, (hedge h g).mp he⟩, (hlive g).mp hl, hp g ▸ hcol, hobjects ▸ hout⟩
  · rintro ⟨⟨h, hh, he⟩, hl, hcol, hout⟩
    exact ⟨⟨h, hobjects ▸ hh, (hedge h g).mpr he⟩, (hlive g).mpr hl, hp g ▸ hcol,
      hobjects ▸ hout⟩

/-- The lists of a cluster have no part in where it leads. -/
theorem leads_bare : (⟨c.root, c.members, [], []⟩ : Cluster).Leads s t g ↔ c.Leads s t g :=
  Leads.congr rfl (fun _ _ => Iff.rfl) (fun _ => Iff.rfl) fun _ => rfl

/-- A cluster that looks at every reference of its objects notes the clusters that it leads to. -/
theorem Noted.referenced_iff {l : List Handle} (h : c.Noted s t l c') (hl : l = c.objects)
    (ht : t.Tidy) : r ∈ c'.referenced ↔ r ∈ c.referenced ∨ ∃ g, c.Leads s t g ∧ t.rootOf g = some r := by
  have hin : ∀ g, c.encloses g = false ↔ g ∉ c.objects := fun g => by
    rw [← encloses_iff, Bool.not_eq_true]
  subst hl
  rw [h.mem_referenced]
  refine or_congr Iff.rfl ⟨?_, ?_⟩
  · rintro ⟨x, hx, g, he, hout⟩
    obtain ⟨hl, hp, hout, hr⟩ := (Table.outside?_eq_cluster_iff ht).mp hout
    exact ⟨g, ⟨⟨x, hx, he⟩, hl, hp, (hin g).mp hout⟩, hr⟩
  · rintro ⟨g, ⟨⟨x, hx, he⟩, hl, hp, hout⟩, hr⟩
    exact ⟨x, hx, g, he, (Table.outside?_eq_cluster_iff ht).mpr ⟨hl, hp, (hin g).mpr hout, hr⟩⟩

/-- A cluster that looks at every reference of its objects notes the objects that it leads to and that
stand alone. -/
theorem Noted.mutables_iff {l : List Handle} (h : c.Noted s t l c') (hl : l = c.objects)
    (ht : t.Tidy) : g ∈ c'.mutables ↔ g ∈ c.mutables ∨ c.Leads s t g ∧ t.rootOf g = none := by
  have hin : ∀ g, c.encloses g = false ↔ g ∉ c.objects := fun g => by
    rw [← encloses_iff, Bool.not_eq_true]
  subst hl
  rw [h.mem_mutables]
  refine or_congr Iff.rfl ⟨?_, ?_⟩
  · rintro ⟨x, hx, y, he, hout⟩
    obtain ⟨rfl, hl, hp, hout, hr⟩ := (Table.outside?_eq_standalone_iff ht).mp hout
    exact ⟨⟨⟨x, hx, he⟩, hl, hp, (hin g).mp hout⟩, hr⟩
  · rintro ⟨⟨⟨x, hx, he⟩, hl, hp, hout⟩, hr⟩
    exact ⟨x, hx, g, he,
      (Table.outside?_eq_standalone_iff ht).mpr ⟨rfl, hl, hp, (hin g).mpr hout, hr⟩⟩

end

end Cluster

end TracingHeap

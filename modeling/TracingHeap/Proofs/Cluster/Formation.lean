import TracingHeap.Proofs.Heap.Writes

namespace TracingHeap

namespace Cluster

def adopted (c : Cluster) (h : Handle) (o : Object) : Object :=
  if h = c.root then o.set .clusterRoot
  else if h ∈ c.members then o.setOwner (some c.root) else o

variable {s : Schema} {t : Table} {cs : Clusters} {c : Cluster} {h : Handle} {o : Object}

theorem thins_adopted {dead : Handle → Prop} (c : Cluster) (h : Handle) (o : Object) :
    o.Thins s dead (c.adopted h o) := by
  unfold adopted
  split
  · exact .of_cells ⟨rfl, rfl, rfl⟩ rfl
  · split <;> exact .of_cells ⟨rfl, rfl, rfl⟩ rfl

theorem has_adopted {f : Flag} (hf : f ≠ .clusterRoot) : (c.adopted h o).has f = o.has f := by
  unfold adopted
  split
  · simp [Ne.symm hf]
  · split <;> rfl

theorem adopted_of_not_mem (hn : h ∉ c.objects) : c.adopted h o = o := by
  rw [mem_objects, not_or] at hn
  rw [adopted, if_neg hn.1, if_neg hn.2]

theorem adopt_evolves (hn : c.members.Nodup) (hr : c.root ∉ c.members) (t : Table) :
    t.Evolves (fun h o o' => o' = c.adopted h o) (c.adopt t) := by
  have hmembers := Table.evolves_foldl_modify (f := (·.setOwner (some c.root))) (fun _ => rfl) hn t
  have hroot := Table.evolves_modify (f := (·.set .clusterRoot)) (fun _ => rfl)
    (c.members.foldl (fun t h => t.modify h (·.setOwner (some c.root))) t) c.root
  apply hmembers.trans hroot
  intro h o p q _ hp hq
  rw [hq, hp, adopted]
  by_cases he : h = c.root
  · rw [if_pos he, if_pos he, if_neg (he ▸ hr)]
  · rw [if_neg he, if_neg he]

def Joins (t : Table) (h : Handle) : Prop :=
  ∃ o, t.get? h = some o ∧ t.isPermanent h = false ∧ o.owner = none ∧
    o.has .clusterRoot = false ∧ o.isUnreachable = false

/-- A cluster that can be formed: its objects may join it, and of their references it has noted those
that leave it. -/
structure Founded (s : Schema) (t : Table) (c : Cluster) : Prop where
  nodup : c.members.Nodup
  apart : c.root ∉ c.members
  joins : ∀ h ∈ c.objects, Joins t h
  noted : (⟨c.root, c.members, [], []⟩ : Cluster).Noted s t c.objects c

theorem Joins.awake (hj : Joins t h) : t.Awake h := by
  obtain ⟨o, ho, -, -, -, hu⟩ := hj
  exact ⟨o, ho, hu⟩

theorem Joins.rootOf (hj : Joins t h) : t.rootOf h = none := by
  obtain ⟨o, ho, -, hn, hf, -⟩ := hj
  simp [Table.rootOf_eq ho, hn, hf]

namespace Founded

variable {d : Cluster} {g x : Handle} {k : Strength}

theorem evolves (hf : c.Founded s t) :
    t.Evolves (fun h o o' => o' = c.adopted h o) (c.adopt t) :=
  c.adopt_evolves hf.nodup hf.apart t

/-- An object that does not join stays as it is. -/
theorem get?_of_not_mem (hf : c.Founded s t) (hn : h ∉ c.objects) :
    (c.adopt t).get? h = t.get? h := by
  cases hg : t.get? h with
  | none => exact hf.evolves.gone h hg
  | some o =>
    obtain ⟨o', ho', heq⟩ := hf.evolves.kept h o hg
    rw [ho', heq, adopted_of_not_mem hn]

theorem get?_root (hf : c.Founded s t) :
    ∃ o : Object, (c.adopt t).get? c.root = some (o.set .clusterRoot) ∧ o.owner = none := by
  obtain ⟨o, ho, -, hown, -⟩ := hf.joins c.root (mem_objects.mpr (.inl rfl))
  obtain ⟨o', ho', heq⟩ := hf.evolves.kept c.root o ho
  rw [adopted, if_pos rfl] at heq
  exact ⟨o, heq ▸ ho', hown⟩

theorem get?_member (hf : c.Founded s t) (hm : h ∈ c.members) :
    ∃ o : Object, (c.adopt t).get? h = some (o.setOwner (some c.root)) ∧
      o.has .clusterRoot = false ∧ o.isUnreachable = false := by
  obtain ⟨o, ho, -, -, hflag, hu⟩ := hf.joins h (mem_objects.mpr (.inr hm))
  obtain ⟨o', ho', heq⟩ := hf.evolves.kept h o ho
  have hne : h ≠ c.root := fun he => hf.apart (he ▸ hm)
  rw [adopted, if_neg hne, if_pos hm] at heq
  exact ⟨o, heq ▸ ho', hflag, hu⟩

theorem rootOf (hf : c.Founded s t) (h : Handle) :
    (c.adopt t).rootOf h = if h ∈ c.objects then some c.root else t.rootOf h := by
  split
  · rename_i hm
    rcases mem_objects.mp hm with hroot | hmem
    · obtain ⟨o, ho, hown⟩ := hf.get?_root
      rw [hroot, Table.rootOf_eq ho]
      simp [hown]
    · obtain ⟨o, ho, -⟩ := hf.get?_member hmem
      rw [Table.rootOf_eq ho]
      simp
  · rename_i hn
    simp [Table.rootOf, hf.get?_of_not_mem hn]

theorem awake_iff (hf : c.Founded s t) : (c.adopt t).Awake g ↔ t.Awake g := by
  have hflag : ∀ o, (c.adopted g o).isUnreachable = o.isUnreachable :=
    fun o => has_adopted (by decide)
  constructor
  · intro ha
    obtain ⟨o', ho', hu⟩ := ha
    obtain ⟨o, ho, heq⟩ := hf.evolves.back ho'
    exact ⟨o, ho, (hflag o).symm.trans (heq ▸ hu)⟩
  · intro ha
    obtain ⟨o, ho, hu⟩ := ha
    obtain ⟨o', ho', heq⟩ := hf.evolves.kept g o ho
    exact ⟨o', ho', heq ▸ (hflag o).trans hu⟩

/-- No object that belonged to a cluster joins this one. -/
theorem not_mem_of_rootOf (hf : c.Founded s t) {r : Handle} (hr : t.rootOf g = some r) :
    g ∉ c.objects := by
  intro hm
  rw [(hf.joins g hm).rootOf] at hr
  cases hr

theorem notes (hf : c.Founded s t) (hg : g ∉ c.objects) (hn : d.Notes t g) :
    d.Notes (c.adopt t) g := by
  rcases hn with hm | ⟨r, hrd, hroot⟩
  · exact .inl hm
  · exact .inr ⟨r, hrd, by rw [hf.rootOf, if_neg hg, hroot]⟩

theorem edge_back (hf : c.Founded s t) (ho : Orderly s t cs) (he : Edge s (c.adopt t) x k g) :
    Edge s t x k g := by
  have hthin : ∀ h (o o' : Object), o' = c.adopted h o → o.Thins s (fun _ => False) o' :=
    fun h o _ heq => heq ▸ c.thins_adopted h o
  exact he.back ho.regular ho.fits hf.evolves hthin

/-- The root of the new cluster is registered, and with it the roots that were. -/
theorem enrolled (hf : c.Founded s t) (he : Enrolled t cs) :
    Enrolled (c.adopt t) ⟨c :: cs.list⟩ := by
  have hroot : c.root ∈ c.objects := mem_objects.mpr (.inl rfl)
  refine ⟨?_, ?_, ?_, ?_, ?_, ?_, ?_⟩
  · refine List.nodup_cons.mpr ⟨fun hm => ?_, he.distinct⟩
    obtain ⟨d, hd, heq⟩ := List.mem_map.mp hm
    exact hf.not_mem_of_rootOf (he.rootOf_root hd) (heq ▸ hroot)
  · intro d hd
    rcases List.mem_cons.mp hd with heq | hd
    · obtain ⟨o, ho, hown⟩ := hf.get?_root
      rw [heq]
      exact ⟨o.set .clusterRoot, ho, by simp, by simp [hown]⟩
    · rw [hf.get?_of_not_mem (hf.not_mem_of_rootOf (he.rootOf_root hd))]
      exact he.root d hd
  · intro g o ho hflag
    by_cases hm : g ∈ c.objects
    · rcases mem_objects.mp hm with heq | hmem
      · exact ⟨c, List.mem_cons_self .., heq.symm⟩
      · obtain ⟨q, hq, hno, -⟩ := hf.get?_member hmem
        rw [ho] at hq
        cases hq
        rw [Object.has_setOwner, hno] at hflag
        cases hflag
    · rw [hf.get?_of_not_mem hm] at ho
      obtain ⟨d, hd, heq⟩ := he.registered g o ho hflag
      exact ⟨d, List.mem_cons_of_mem _ hd, heq⟩
  · intro d hd m hm
    rcases List.mem_cons.mp hd with heq | hd
    · rw [heq] at hm ⊢
      obtain ⟨o, ho, -, hu⟩ := hf.get?_member hm
      exact ⟨_, ho, Object.owner_setOwner .., hu⟩
    · rw [hf.get?_of_not_mem (hf.not_mem_of_rootOf (he.rootOf_member hd hm))]
      exact he.member d hd m hm
  · intro g o r ho hown
    by_cases hm : g ∈ c.objects
    · have hr := hf.rootOf g
      rw [if_pos hm, Table.rootOf_eq ho, hown] at hr
      cases hr
      rcases mem_objects.mp hm with heq | hmem
      · obtain ⟨q, hq, hno⟩ := hf.get?_root
        rw [heq, hq] at ho
        cases ho
        rw [Object.owner_set, hno] at hown
        cases hown
      · exact ⟨c, List.mem_cons_self .., rfl, hmem⟩
    · rw [hf.get?_of_not_mem hm] at ho
      obtain ⟨d, hd, hrest⟩ := he.listed g o r ho hown
      exact ⟨d, List.mem_cons_of_mem _ hd, hrest⟩
  · intro d hd
    rcases List.mem_cons.mp hd with heq | hd
    · rw [heq]
      exact ⟨hf.nodup, hf.noted.nodup_referenced .nil, hf.noted.nodup_mutables .nil⟩
    · exact he.nodup d hd
  · intro d hd m hm
    rw [hf.evolves.isPermanent, hf.evolves.isPermanent]
    rcases List.mem_cons.mp hd with heq | hd
    · rw [heq] at hm ⊢
      obtain ⟨-, -, hpm, -⟩ := hf.joins m (mem_objects.mpr (.inr hm))
      obtain ⟨-, -, hpr, -⟩ := hf.joins c.root hroot
      rw [hpm, hpr]
    · exact he.pooled d hd m hm

/-- The new cluster has noted every reference that leaves it. -/
theorem tracks (hf : c.Founded s t) (hs : Settled s t cs) :
    c.Tracks s (c.adopt t) ⟨c :: cs.list⟩ := by
  have ho := hs.orderly
  have ev := hf.evolves
  refine ⟨fun r hrc => ?_, fun m hm => ?_, fun x hx g hxg hpg hout => ?_⟩
  · rcases (hf.noted.mem_referenced r).mp hrc with hrc | ⟨x, -, g, -, hout⟩
    · cases hrc
    · obtain ⟨-, -, e, hmem, her, -⟩ := registered_of_outside ho.tidy ho.enrolled hout
      exact ⟨e, List.mem_cons_of_mem _ hmem, her⟩
  · rcases (hf.noted.mem_mutables m).mp hm with hm | ⟨x, -, g, -, hout⟩
    · cases hm
    · obtain ⟨hmg, -, hpg, o, hg⟩ := eq_of_outside ho.tidy hout
      obtain ⟨o', ho', -⟩ := ev.kept g o hg
      rw [hmg]
      exact ⟨⟨o', ho'⟩, (ev.isPermanent g).trans hpg⟩
  · rw [ev.isPermanent] at hpg
    have hxg' := hf.edge_back ho hxg
    obtain ⟨-, -, hpx, -⟩ := hf.joins x hx
    obtain ⟨o, hg, -⟩ := hs.linked x .strong g hxg' (hf.joins x hx).awake (.inr hpx)
    exact hf.notes hout (hf.noted.notes ho.tidy hx hxg' ⟨o, hg⟩ hpg hout)

/-- The clusters that were there know what they knew. -/
theorem tracks_of_mem (hf : c.Founded s t) (ho : Orderly s t cs) (hd : d ∈ cs.list)
    (hp : t.isPermanent d.root = false) : d.Tracks s (c.adopt t) ⟨c :: cs.list⟩ := by
  have ev := hf.evolves
  have htr := ho.tracked d hd hp
  refine ⟨fun r hrd => ?_, fun m hm => ?_, fun x hx g hxg hpg hout => ?_⟩
  · obtain ⟨e, hmem, her⟩ := htr.referenced r hrd
    exact ⟨e, List.mem_cons_of_mem _ hmem, her⟩
  · obtain ⟨⟨o, hm⟩, hpm⟩ := htr.mutables m hm
    obtain ⟨o', ho', -⟩ := ev.kept m o hm
    exact ⟨⟨o', ho'⟩, (ev.isPermanent m).trans hpm⟩
  · rw [ev.isPermanent] at hpg
    rcases htr.covered x hx g (hf.edge_back ho hxg) hpg hout with hm | ⟨r, hrd, hroot⟩
    · exact .inl hm
    · exact hf.notes (hf.not_mem_of_rootOf hroot) (.inr ⟨r, hrd, hroot⟩)

end Founded

end Cluster

/-- A cluster that knows of every reference that leaves it joins a settled heap. -/
theorem Settled.adopt {s : Schema} {t : Table} {cs : Clusters} {c : Cluster} (hs : Settled s t cs)
    (hf : c.Founded s t) : Settled s (c.adopt t) ⟨c :: cs.list⟩ := by
  have ho := hs.orderly
  have ev := hf.evolves
  refine ⟨⟨ho.regular, ev.tidy ho.tidy, ?_, hf.enrolled ho.enrolled, ?_, ?_⟩, ?_, ?_, ?_⟩
  · intro g o' ho'
    obtain ⟨o, hg, heq⟩ := ev.back ho'
    have hthin : o.Thins s (fun _ => False) (c.adopted g o) := c.thins_adopted g o
    exact heq ▸ hthin.fits (ho.fits g o hg)
  · intro d hd hp
    rw [ev.isPermanent] at hp
    rcases List.mem_cons.mp hd with heq | hd
    · exact heq ▸ hf.tracks hs
    · exact hf.tracks_of_mem ho hd hp
  · intro g o' ho' hrs
    obtain ⟨o, hg, heq⟩ := ev.back ho'
    rw [heq, Cluster.has_adopted (by decide)] at hrs ⊢
    exact ho.unkilled g o hg hrs
  · intro d hd
    rw [hf.awake_iff]
    rcases List.mem_cons.mp hd with heq | hd
    · rw [heq]
      exact (hf.joins c.root (Cluster.mem_objects.mpr (.inl rfl))).awake
    · exact hs.roots d hd
  · intro d hd hp m hm
    rw [ev.isPermanent] at hp
    rw [hf.awake_iff]
    rcases List.mem_cons.mp hd with heq | hd
    · rw [heq] at hm
      rcases (hf.noted.mem_mutables m).mp hm with hm | ⟨x, hx, g, hxg, hout⟩
      · cases hm
      · obtain ⟨hmg, -⟩ := Cluster.eq_of_outside ho.tidy hout
        obtain ⟨-, -, hpx, -⟩ := hf.joins x hx
        rw [hmg]
        exact hs.linked x .strong g hxg (hf.joins x hx).awake (.inr hpx)
    · exact hs.mutables d hd hp m hm
  · intro x k g hxg ha hheed
    rw [ev.isPermanent] at hheed
    rw [hf.awake_iff] at ha ⊢
    exact hs.linked x k g (hf.edge_back ho hxg) ha hheed

namespace Cluster

variable {s : Schema} {t : Table} {c c' : Cluster} {root : Handle} {members l : List Handle}

theorem Noted.sorted (hn : c.Noted s t l c') : c.Noted s t l c'.sorted := by
  refine ⟨hn.root, hn.members, fun h => ?_, fun h => ?_, fun r => ?_, fun m => ?_⟩
  · exact (List.mergeSort_perm _ _).nodup_iff.mpr (hn.nodup_referenced h)
  · exact (List.mergeSort_perm _ _).nodup_iff.mpr (hn.nodup_mutables h)
  · rw [← hn.mem_referenced r]
    exact List.mem_mergeSort
  · rw [← hn.mem_mutables m]
    exact List.mem_mergeSort

theorem joins_of_clusterable {h : Handle} (hc : t.clusterable h = .ok ()) : Joins t h := by
  unfold Table.clusterable at hc
  cases ho : t.get? h with
  | none => simp [ho, throw, throwThe, MonadExceptOf.throw] at hc
  | some o =>
    simp only [ho] at hc
    by_cases hp : t.isPermanent h = true
    · simp [hp, throw, throwThe, MonadExceptOf.throw, bind, Except.bind] at hc
    by_cases hown : o.owner.isSome = true
    · simp [hp, hown, throw, throwThe, MonadExceptOf.throw, bind, Except.bind] at hc
    by_cases hf : o.has .clusterRoot = true
    · simp [hp, hown, hf, throw, throwThe, MonadExceptOf.throw, bind, Except.bind] at hc
    by_cases hd : o.flags.intersects .doomed = true
    · simp [hp, hown, hf, hd, throw, throwThe, MonadExceptOf.throw] at hc
    refine ⟨o, ho, by simpa using hp, by simpa using hown, by simpa using hf, ?_⟩
    cases hu : o.isUnreachable with
    | false => rfl
    | true => exact absurd (Flags.intersects_of_has hu (by decide)) hd

theorem forM_ok {f : Handle → Except HeapError Unit} (hf : l.forM f = .ok ()) :
    ∀ h ∈ l, f h = .ok () := by
  induction l with
  | nil =>
    intro h hm
    cases hm
  | cons a rest ih =>
    simp only [List.forM_eq_forM, List.forM_cons] at hf ⊢
    obtain ⟨⟨⟩, ha, hrest⟩ := except_bind_ok hf
    intro h hm
    rcases List.mem_cons.mp hm with heq | hm
    · rw [heq]
      exact ha
    · exact ih hrest h hm

/-- What forming comes to: a cluster, the refusal of an object, or a count that is too large. -/
theorem form_cases (hs : s.Regular) (hfit : ∀ h o, t.get? h = some o → s.Fits o) (root : Handle)
    (members : List Handle) :
    (∃ made, form s t root members = .ok made ∧ made.Founded s t) ∨
      (∃ e, form s t root members = .error (.error e)) ∨
        ∃ f : Fault, form s t root members = .error (.fault f) ∧ f.IsOverflow := by
  unfold form
  cases hall : (root :: members).forM t.clusterable with
  | error e => exact .inr (.inl ⟨e, by simp [bind, Except.bind]⟩)
  | ok =>
    let c : Cluster := ⟨root, (HandleSet.ofList [root]).missing members, [], []⟩
    have hclusterable := forM_ok hall
    have hmember : ∀ {h}, h ∈ c.members → h ∈ members ∧ h ≠ root := by
      intro h hm
      obtain ⟨hin, hout⟩ := HandleSet.mem_missing.mp hm
      exact ⟨hin, by simpa [HandleSet.contains_ofList] using hout⟩
    have hjoins : ∀ h ∈ c.objects, Joins t h := by
      intro h hm
      apply joins_of_clusterable (hclusterable h _)
      rcases mem_objects.mp hm with heq | hm
      · exact List.mem_cons.mpr (.inl heq)
      · exact List.mem_cons_of_mem _ (hmember hm).1
    have hnote := noteAll_cases hs hfit c
    rcases hnote with ⟨c', hc', hnoted⟩ | ⟨f, hf, hover⟩
    · refine .inl ⟨c'.sorted, by simp [bind, Except.bind, c, hc', pure,
        Except.pure], ?_⟩
      have hsorted := hnoted.sorted
      have hroot : c'.sorted.root = c.root := hsorted.root
      have hmembers : c'.sorted.members = c.members := hsorted.members
      refine ⟨?_, ?_, ?_, ?_⟩
      · rw [hmembers]
        exact HandleSet.nodup_missing _ members
      · rw [hroot, hmembers]
        exact fun hm => (hmember hm).2 rfl
      · rw [hsorted.objects]
        exact hjoins
      · rw [hroot, hmembers, hsorted.objects]
        exact hsorted
    · exact .inr (.inr ⟨f, by simp [bind, Except.bind, c, hf], hover⟩)

end Cluster

/-- The root of a new cluster was registered by none. -/
theorem Clusters.insert_founded {s : Schema} {t : Table} {cs : Clusters} {c : Cluster}
    (he : Enrolled t cs) (hf : c.Founded s t) : cs.insert c = ⟨c :: cs.list⟩ := by
  unfold insert contains
  rw [get?_eq_none_iff.mpr]
  · rfl
  · intro d hd hroot
    have hrd := he.rootOf_root hd
    rw [hroot, (hf.joins c.root (Cluster.mem_objects.mpr (.inl rfl))).rootOf] at hrd
    cases hrd

end TracingHeap

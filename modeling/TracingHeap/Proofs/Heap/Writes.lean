import TracingHeap.Proofs.Heap.Changes
import TracingHeap.Proofs.Cluster.Dissolution

namespace TracingHeap

namespace Clusters

variable {s : Schema} {t : Table} {cs cs' : Clusters} {c : Cluster} {h : Handle}

/-- Clusters that keep their roots and members, and their lists free of repetition, stay in
agreement with the objects. -/
theorem Becomes.enrolled {R : Cluster → Cluster → Prop} (hb : Becomes R cs cs')
    (he : Enrolled t cs) (hmembers : ∀ d d', R d d' → d'.members = d.members)
    (hnodup : ∀ d d', R d d' → d.referenced.Nodup ∧ d.mutables.Nodup →
      d'.referenced.Nodup ∧ d'.mutables.Nodup) : Enrolled t cs' := by
  refine ⟨hb.roots ▸ he.distinct, ?_, ?_, ?_, ?_, ?_, ?_⟩
  · intro d' hd'
    obtain ⟨d, hd, -, hroot⟩ := hb.back hd'
    rw [hroot]
    exact he.root d hd
  · intro g o ho hf
    obtain ⟨d, hd, hroot⟩ := he.registered g o ho hf
    obtain ⟨d', hd', -, hroot'⟩ := hb.forth hd
    exact ⟨d', hd', hroot'.trans hroot⟩
  · intro d' hd' m hm
    obtain ⟨d, hd, hR, hroot⟩ := hb.back hd'
    rw [hmembers d d' hR] at hm
    rw [hroot]
    exact he.member d hd m hm
  · intro g o r ho hown
    obtain ⟨d, hd, hroot, hm⟩ := he.listed g o r ho hown
    obtain ⟨d', hd', hR, hroot'⟩ := hb.forth hd
    exact ⟨d', hd', hroot'.trans hroot, hmembers d d' hR ▸ hm⟩
  · intro d' hd'
    obtain ⟨d, hd, hR, -⟩ := hb.back hd'
    obtain ⟨h1, h2⟩ := he.nodup d hd
    exact ⟨hmembers d d' hR ▸ h1, hnodup d d' hR h2⟩
  · intro d' hd' m hm
    obtain ⟨d, hd, hR, hroot⟩ := hb.back hd'
    rw [hmembers d d' hR] at hm
    rw [hroot]
    exact he.pooled d hd m hm

/-- What recording does: the cluster that the object belongs to notes its references. -/
theorem record_cases (hs : s.Regular) (hfit : ∀ g o, t.get? g = some o → s.Fits o)
    (he : Enrolled t cs) {o : Object} (ho : t.get? h = some o) :
    (∃ cs', cs.record s t h = .ok cs' ∧ Becomes (fun d d' =>
        h ∉ d.objects ∧ d' = d ∨ h ∈ d.objects ∧ d.Noted s t [h] d') cs cs') ∨
      ∃ f : Fault, cs.record s t h = .error (.fault f) ∧ f.IsOverflow := by
  have hroot : (if o.has .clusterRoot then some h else o.owner) = t.rootOf h := by
    rw [Table.rootOf_eq ho]
    cases hf : o.has .clusterRoot with
    | false => simp
    | true =>
      obtain ⟨c, hc, hr⟩ := he.registered h o ho hf
      obtain ⟨q, hq, -, hn⟩ := he.root c hc
      rw [hr, ho] at hq
      cases hq
      simp [hn]
  unfold record
  simp only [ho, hroot]
  cases hr : t.rootOf h with
  | none =>
    refine .inl ⟨cs, rfl, id, by simp, fun d hd => .inl ⟨fun hm => ?_, rfl⟩, fun _ _ => rfl⟩
    rw [he.rootOf_of_mem hd hm] at hr
    cases hr
  | some r =>
    obtain ⟨c, hc, hcr, hm⟩ := he.cluster_of_rootOf hr
    have hget : cs.get? r = some c := hcr ▸ get?_of_mem he.distinct hc
    simp only [hget]
    rcases c.noteObject_cases hs hfit h with ⟨c', hc', hnoted⟩ | ⟨f, hf, hover⟩
    · refine .inl ⟨cs.replace c', by simp [hc', bind, Except.bind, pure, Except.pure], ?_⟩
      obtain ⟨f, hf, hR, hfroot⟩ := (Becomes.replace he.distinct hc hnoted.root).map
      refine ⟨f, hf, fun d hd => ?_, hfroot⟩
      rcases hR d hd with ⟨hdc, hfd⟩ | ⟨hdc, hfd⟩
      · rw [hfd, hdc]
        exact .inr ⟨hm, hnoted⟩
      · refine .inl ⟨fun hmd => hdc ?_, hfd⟩
        have hrd := he.rootOf_of_mem hd hmd
        rw [hr] at hrd
        exact eq_of_root he.distinct hd hc ((Option.some.inj hrd).symm.trans hcr.symm)
    · exact .inr ⟨f, by simp [hf, bind, Except.bind], hover⟩

end Clusters

namespace Object

structure Recelled (o o' : Object) : Prop extends o.Same o' where
  owner : o'.owner = o.owner
  flags : o'.flags = o.flags

theorem Recelled.has {o o' : Object} (h : o.Recelled o') (f : Flag) : o'.has f = o.has f := by
  rw [Object.has, Object.has, h.flags]

end Object

/-- The cells of one object have changed. -/
theorem Table.evolves_recelled {u : Object → Object} (hu : ∀ o : Object, o.Recelled (u o))
    (t : Table) (h : Handle) :
    t.Evolves (fun g (o o' : Object) => o.Recelled o' ∧ (g ≠ h → o' = o)) (t.modify h u) := by
  apply Table.Evolves.modify fun o => (hu o).handle
  · intro o _
    exact ⟨hu o, fun hne => absurd rfl hne⟩
  · intro g o _ _
    exact ⟨⟨⟨rfl, rfl, rfl⟩, rfl, rfl⟩, fun _ => rfl⟩

theorem Enrolled.recelled {t : Table} {cs : Clusters} (he : Enrolled t cs) {u : Object → Object}
    (hu : ∀ o : Object, o.Recelled (u o)) (h : Handle) : Enrolled (t.modify h u) cs := by
  apply he.evolves (t.evolves_recelled hu h) (fun _ _ _ _ hr => hr.1.owner)
    (fun _ _ _ _ hr => hr.1.has .clusterRoot)
  intro g o o' _ hr _ hup
  exact (hr.1.has .unreachable).trans hup

theorem Schema.fits_recelled {s : Schema} {t : Table} (hfit : ∀ g o, t.get? g = some o → s.Fits o)
    {h : Handle} {o : Object} (ho : t.get? h = some o) {u : Object → Object} (hu : s.Fits (u o)) :
    ∀ g p, (t.modify h u).get? g = some p → s.Fits p := by
  intro g p hp
  by_cases hg : g = h
  · rw [hg, Table.get?_modify_self, ho] at hp
    cases hp
    exact hu
  · rw [Table.get?_modify_of_ne t hg] at hp
    exact hfit g p hp

section

variable {s : Schema} {t : Table} {cs cs' : Clusters} {d d' : Cluster} {g h : Handle} {o : Object}
  {u : Object → Object}

theorem Table.awake_recelled (hu : ∀ o : Object, o.Recelled (u o)) :
    (t.modify h u).Awake g ↔ t.Awake g := by
  have ev := t.evolves_recelled hu h
  constructor
  · intro ha
    obtain ⟨p', hp', hup⟩ := ha
    obtain ⟨p, hp, hr, -⟩ := ev.back hp'
    exact ⟨p, hp, (hr.has .unreachable).symm.trans hup⟩
  · intro ha
    obtain ⟨p, hp, hup⟩ := ha
    obtain ⟨p', hp', hr, -⟩ := ev.kept g p hp
    exact ⟨p', hp', (hr.has .unreachable).trans hup⟩

theorem Table.rootOf_recelled (hu : ∀ o : Object, o.Recelled (u o)) (g : Handle) :
    (t.modify h u).rootOf g = t.rootOf g :=
  Table.rootOf_evolves (t.evolves_recelled hu h) (fun _ _ _ _ hr => hr.1.owner)
    (fun _ _ _ _ hr => hr.1.has .clusterRoot) g

theorem Cluster.Notes.recelled (hu : ∀ o : Object, o.Recelled (u o)) (hn : d.Notes t g) :
    d.Notes (t.modify h u) g := by
  rcases hn with hm | ⟨r, hr, hroot⟩
  · exact .inl hm
  · exact .inr ⟨r, hr, (Table.rootOf_recelled hu g).trans hroot⟩

/-- Every reference was there, or it is one of the new references of the object written to. -/
theorem Edge.of_recelled (hs : Settled s t cs) (hget : t.get? h = some o)
    (hu : ∀ o : Object, o.Recelled (u o)) (hfit : s.Fits (u o)) {P : Handle → Prop}
    (hslots : ∀ a g, (u o).slot? a = some (some g) → o.slot? a = some (some g) ∨ P g)
    {x : Handle} {k : Strength} (he : Edge s (t.modify h u) x k g) :
    Edge s t x k g ∨ x = h ∧ P g := by
  obtain ⟨p', a, hp', hrep, hslot⟩ := he
  by_cases hx : x = h
  · subst hx
    rw [Table.get?_modify_self, hget] at hp'
    cases hp'
    rcases hslots a g hslot with hold | hg
    · have ho := hs.orderly
      exact .inl ⟨o, a, hget, hrep.steady ho.regular (ho.fits x o hget) hfit (hu o).toSame hold hslot,
        hold⟩
    · exact .inr ⟨rfl, hg⟩
  · obtain ⟨p, hp, -, hsame⟩ := (t.evolves_recelled hu h).back hp'
    rw [hsame hx] at hrep hslot
    exact .inl ⟨p, a, hp, hrep, hslot⟩

/-- The cluster has noted the references of an object that was changed, if it has the object and there
may be new ones. -/
def Cluster.CatchesUp (s : Schema) (t t' : Table) (h : Handle) (d d' : Cluster) : Prop :=
  d' = d ∧ (h ∈ d.objects → ∀ g, Edge s t' h .strong g → Edge s t h .strong g) ∨
    h ∈ d.objects ∧ d.Noted s t' [h] d'

theorem Enrolled.catchUp (he : Enrolled t cs) {t' : Table}
    (hb : Clusters.Becomes (Cluster.CatchesUp s t' t h) cs cs') : Enrolled t cs' := by
  apply hb.enrolled he
  · intro d d' hR
    rcases hR with ⟨hd, -⟩ | ⟨-, hn⟩
    · rw [hd]
    · exact hn.members
  · intro d d' hR hnodup
    rcases hR with ⟨hd, -⟩ | ⟨-, hn⟩
    · rw [hd]
      exact hnodup
    · exact ⟨hn.nodup_referenced hnodup.1, hn.nodup_mutables hnodup.2⟩

end

namespace Settled

section

variable {s : Schema} {t : Table} {cs cs' : Clusters} {d d' : Cluster} {g h : Handle} {o : Object}
  {u : Object → Object} (hs : Settled s t cs) (hget : t.get? h = some o)
  (hu : ∀ o : Object, o.Recelled (u o)) (hfit : s.Fits (u o))
  (hslots : ∀ a g, (u o).slot? a = some (some g) → o.slot? a = some (some g) ∨ t.Awake g)
include hs hget hu hfit hslots

theorem linked_recelled {x : Handle} {k : Strength} (he : Edge s (t.modify h u) x k g)
    (ha : t.Awake x) (hheed : k = .weak ∨ t.isPermanent x = false) : t.Awake g := by
  rcases he.of_recelled hs hget hu hfit hslots with hold | ⟨-, hg⟩
  · exact hs.linked x k g hold ha hheed
  · exact hg

/-- A cluster that has caught up knows of every reference again. -/
theorem tracks_recelled (hd : d ∈ cs.list) (hp : t.isPermanent d.root = false)
    (hR : Cluster.CatchesUp s t (t.modify h u) h d d')
    (hregistered : ∀ r, (∃ e ∈ cs.list, e.root = r) → ∃ e ∈ cs'.list, e.root = r) :
    d'.Tracks s (t.modify h u) cs' := by
  have ho := hs.orderly
  have he := ho.enrolled
  have ev := t.evolves_recelled hu h
  have htidy := ev.tidy ho.tidy
  have htr := ho.tracked d hd hp
  have hlive : ∀ {m}, m ∈ d.mutables →
      (∃ p, (t.modify h u).get? m = some p) ∧ (t.modify h u).isPermanent m = false := by
    intro m hm
    obtain ⟨⟨p, hpm⟩, hperm⟩ := htr.mutables m hm
    obtain ⟨p', hp', -⟩ := ev.kept m p hpm
    exact ⟨⟨p', hp'⟩, hperm⟩
  rcases hR with ⟨hsame, hsub⟩ | ⟨hin, hn⟩
  · rw [hsame]
    refine ⟨fun r hr => hregistered r (htr.referenced r hr), fun m hm => hlive hm, ?_⟩
    intro x hx g hxg hpg hout
    rcases hxg.of_recelled hs hget hu hfit hslots with hold | ⟨hxh, -⟩
    · exact (htr.covered x hx g hold hpg hout).recelled hu
    · rw [hxh] at hx hxg
      exact (htr.covered h hx g (hsub hx g hxg) hpg hout).recelled hu
  · refine ⟨fun r hr => ?_, fun m hm => ?_, ?_⟩
    · rcases (hn.mem_referenced r).mp hr with hr | ⟨x, -, g, -, hout⟩
      · exact hregistered r (htr.referenced r hr)
      · obtain ⟨-, -, e, hemem, her, -⟩ :=
          Cluster.registered_of_outside htidy (he.recelled hu h) hout
        exact hregistered r ⟨e, hemem, her⟩
    · rcases (hn.mem_mutables m).mp hm with hm | ⟨x, -, g, -, hout⟩
      · exact hlive hm
      · obtain ⟨hmg, -, hpg, hl⟩ := Cluster.eq_of_outside htidy hout
        rw [hmg]
        exact ⟨hl, hpg⟩
    · intro x hx g hxg hpg hout
      rw [hn.objects] at hx hout
      have hpx := (he.permanent_objects hd hx).trans hp
      have hg := hs.linked_recelled hget hu hfit hslots hxg (hs.awake_objects hd hx) (.inr hpx)
      by_cases hxh : x = h
      · rw [hxh] at hxg
        obtain ⟨p, hpget, -⟩ := (Table.awake_recelled hu).mpr hg
        exact hn.notes htidy (List.mem_singleton_self h) hxg ⟨p, hpget⟩ hpg hout
      · have hold := (hxg.of_recelled hs hget hu hfit hslots).resolve_right fun hx => hxh hx.1
        exact hn.notes_mono ((htr.covered x hx g hold hpg hout).recelled hu)

/-- Cells are changed so that every reference in them was there or leads to an object that is not
flagged, and then the clusters know of the new references: the heap is settled. -/
theorem write (hb : Clusters.Becomes (Cluster.CatchesUp s t (t.modify h u) h) cs cs') :
    Settled s (t.modify h u) cs' := by
  have ho := hs.orderly
  have he := ho.enrolled
  have ev := t.evolves_recelled hu h
  have htidy := ev.tidy ho.tidy
  have he' := (he.recelled hu h).catchUp hb
  refine ⟨⟨ho.regular, htidy, Schema.fits_recelled ho.fits hget hfit, he', ?_, ?_⟩, ?_, ?_, ?_⟩
  · intro d' hd' hp
    obtain ⟨d, hd, hR, hroot⟩ := hb.back hd'
    rw [Table.isPermanent_modify, hroot] at hp
    apply hs.tracks_recelled hget hu hfit hslots hd hp hR
    intro r hr
    obtain ⟨e, hemem, her⟩ := hr
    obtain ⟨e', he', -, her'⟩ := hb.forth hemem
    exact ⟨e', he', her'.trans her⟩
  · intro g p' hp' hr
    obtain ⟨p, hp, hrec, -⟩ := ev.back hp'
    rw [hrec.has] at hr ⊢
    exact ho.unkilled g p hp hr
  · intro d' hd'
    obtain ⟨d, hd, -, hroot⟩ := hb.back hd'
    rw [hroot, Table.awake_recelled hu]
    exact hs.roots d hd
  · intro d' hd' hp m hm
    obtain ⟨d, hd, hR, hroot⟩ := hb.back hd'
    rw [Table.isPermanent_modify, hroot] at hp
    rw [Table.awake_recelled hu]
    rcases hR with ⟨hsame, -⟩ | ⟨hin, hn⟩
    · exact hs.mutables d hd hp m (hsame ▸ hm)
    · rcases (hn.mem_mutables m).mp hm with hm | ⟨x, hx, g, hxg, hout⟩
      · exact hs.mutables d hd hp m hm
      · obtain ⟨hmg, -⟩ := Cluster.eq_of_outside htidy hout
        rw [hmg]
        rw [List.mem_singleton.mp hx] at hxg
        exact hs.linked_recelled hget hu hfit hslots hxg (hs.awake_objects hd hin)
          (.inr ((he.permanent_objects hd hin).trans hp))
  · intro x k g hxg ha hheed
    rw [Table.awake_recelled hu] at ha ⊢
    exact hs.linked_recelled hget hu hfit hslots hxg ha hheed

end

end Settled

end TracingHeap

import TracingHeap.Proofs.Outcome
import TracingHeap.Proofs.Trace.Invariant
import TracingHeap.Marking.Edge

namespace TracingHeap

namespace Marking

variable {s : Schema} {m m' m'' : Marking} {h : Handle} {o : Object}

structure Grows (s : Schema) (m m' : Marking) : Prop where
  table : m.table.Advances s m'.table
  weak : ∀ x, x ∈ m.output.weak → x ∈ m'.output.weak

theorem Grows.refl (m : Marking) : m.Grows s m := ⟨.refl _, fun _ h => h⟩

theorem Grows.trans (a : m.Grows s m') (b : m'.Grows s m'') : m.Grows s m'' :=
  ⟨a.table.trans b.table, fun x hx => b.weak x (a.weak x hx)⟩

theorem Grows.clearFlag (hp : m.table.isPermanent h = false) {f : Flag}
    (hf : f = .unreachable ∨ f = .noStrongReference) : m.Grows s (m.clearFlag h f) :=
  ⟨Table.Advances.modify hp (fun _ => rfl) fun o _ => .clearFlag o hf, fun _ hx => hx⟩

theorem Grows.claim (hp : m.table.isPermanent h = false) : m.Grows s (m.claim h) :=
  (Grows.clearFlag hp (.inl rfl)).trans
    (Grows.clearFlag (m := m.clearFlag h .unreachable) hp (.inr rfl))

theorem Grows.setInCluster (hp : m.table.isPermanent h = false) :
    m.Grows s (m.setFlag h .reachableInCluster) :=
  ⟨Table.Advances.modify hp (fun _ => rfl) fun o _ => .setInCluster o, fun _ hx => hx⟩

theorem get?_clearFlag (m : Marking) (h g : Handle) (f : Flag) : (m.clearFlag h f).table.get? g =
    if g = h then (m.table.get? g).map (·.clear f) else m.table.get? g :=
  Table.get?_modify ..

theorem get?_setFlag (m : Marking) (h g : Handle) (f : Flag) : (m.setFlag h f).table.get? g =
    if g = h then (m.table.get? g).map (·.set f) else m.table.get? g :=
  Table.get?_modify ..

/-- Clearing a flag of one object leaves the other flags, and the other objects, as they are. -/
theorem has_clearFlag {g : Handle} {f f' : Flag} {o o' : Object} (ho : m.table.get? g = some o)
    (ho' : (m.clearFlag h f).table.get? g = some o') (hne : g ≠ h ∨ f ≠ f') :
    o'.has f' = o.has f' := by
  rw [get?_clearFlag, ho] at ho'
  split at ho'
  · cases ho'
    rcases hne with hne | hne
    · exact absurd ‹_› hne
    · simp [hne]
  · cases ho'
    rfl

theorem free_clearFlag (ho : m.table.get? h = some o) (hn : o.owner = none) :
    (m.clearFlag h .unreachable).table.Free h := by
  refine ⟨o.clear .unreachable, ?_, hn, by simp [Object.isUnreachable]⟩
  rw [get?_clearFlag, ho]
  simp

theorem free_claim (ho : m.table.get? h = some o) (hn : o.owner = none) :
    (m.claim h).table.Free h := by
  refine ⟨(o.clear .unreachable).clear .noStrongReference, ?_, hn, by simp [Object.isUnreachable]⟩
  rw [claim, get?_clearFlag, get?_clearFlag, ho]
  simp

end Marking

section

variable (tr : Tracer) (good : Handle → Prop)

/-- The invariant of a trace in the midst of a task. `rest` tells the objects that wait elsewhere
than with the task, `kept` the weak slots written down elsewhere. -/
abbrev Pass (rest : Handle → Prop) (kept : Site → Prop) (m : Marking) : Prop :=
  Tracing tr.schema tr.clusters tr.memberKeepsCluster good
    (fun h => rest h ∨ h ∈ m.output.reached) (fun x => kept x ∨ x ∈ m.output.weak) m.table

def Tracer.Roots (h : Handle) : Prop := ∃ c ∈ tr.clusters.list, c.root = h

/-- What is asked of a call that expands the cluster of a root: the root was claimed and waits, and
after the call it need not wait any more. -/
def Expands (expand : Handle → Marking → Except Fault Marking) : Prop :=
  ∀ rest kept r m, Pass tr good (fun x => x = r ∨ rest x) kept m → tr.Roots r →
    Yields (expand r m) fun m' => Pass tr good rest kept m' ∧ m.Grows tr.schema m'

end

namespace Pass

variable {tr : Tracer} {good rest : Handle → Prop} {kept : Site → Prop} {m : Marking} {h : Handle}
  {o : Object}

/-- A claimed object joins those that wait elsewhere. -/
theorem clearUnreachable (p : Pass tr good rest kept m) (ho : m.table.get? h = some o)
    (hp : m.table.isPermanent h = false) (hn : o.owner = none) (hg : good h) :
    Pass tr good (fun x => x = h ∨ rest x) kept (m.clearFlag h .unreachable) := by
  refine (Tracing.claim p (Marking.Grows.clearFlag hp (.inl rfl)).table (fun _ hx => hx) hp hg
    (Marking.free_clearFlag ho hn) fun g q q' hq hq' => ⟨fun hne => ?_, ?_⟩).congr ?_
  · exact Marking.has_clearFlag hq hq' (.inl hne)
  · exact Marking.has_clearFlag hq hq' (.inr (by decide))
  · intro x
    exact or_assoc.symm

theorem clearNoStrong (p : Pass tr good rest kept m) (hp : m.table.isPermanent h = false) :
    Pass tr good rest kept (m.clearFlag h .noStrongReference) := by
  refine Tracing.quiet p (Marking.Grows.clearFlag hp (.inr rfl)).table fun g q q' hq hq' => ⟨?_, ?_⟩
  · exact Marking.has_clearFlag hq hq' (.inr (by decide))
  · exact Marking.has_clearFlag hq hq' (.inr (by decide))

theorem claim (p : Pass tr good rest kept m) (ho : m.table.get? h = some o)
    (hp : m.table.isPermanent h = false) (hn : o.owner = none) (hg : good h) :
    Pass tr good (fun x => x = h ∨ rest x) kept (m.claim h) :=
  (p.clearUnreachable ho hp hn hg).clearNoStrong hp

/-- A claimed object is queued for the next wave. -/
theorem reach (p : Pass tr good (fun x => x = h ∨ rest x) kept m) :
    Pass tr good rest kept (m.reach h) := by
  refine Tracing.congr p fun x => ?_
  simp only [Marking.reach, Array.mem_push]
  constructor
  · rintro ((rfl | hx) | hx)
    · exact .inr (.inr rfl)
    · exact .inl hx
    · exact .inr (.inl hx)
  · rintro (hx | hx | rfl)
    · exact .inl (.inr hx)
    · exact .inr hx
    · exact .inl (.inl rfl)

/-- The objects of a cluster outside the pool are good if one of them is. -/
theorem good_peer {c : Cluster} {g : Handle} (p : Pass tr good rest kept m)
    (hc : c ∈ tr.clusters.list) (hm : h ∈ c.objects) (hp : m.table.isPermanent h = false)
    (hg : good h) (hm' : g ∈ c.objects) : m.table.isPermanent g = false ∧ good g := by
  have hpr : m.table.isPermanent c.root = false := by
    rw [← p.orderly.enrolled.permanent_objects hc hm]
    exact hp
  exact ⟨(p.orderly.enrolled.permanent_objects hc hm').trans hpr,
    p.closed.peers c hc hpr h hm hg g hm'⟩

/-- A member is flagged as referenced from outside, and the root is claimed already if members keep
their clusters. -/
theorem setInCluster (p : Pass tr good rest kept m) (ho : m.table.get? h = some o)
    (hp : m.table.isPermanent h = false) {r : Handle} (hown : o.owner = some r) (hg : good h)
    (hr : tr.memberKeepsCluster = true → m.table.Awake r) :
    Pass tr good rest kept (m.setFlag h .reachableInCluster) := by
  have a : m.table.Advances tr.schema (m.setFlag h .reachableInCluster).table :=
    (Marking.Grows.setInCluster hp).table
  refine p.advance a (fun _ hx => hx) (fun _ hx => hx) ?_ ?_ fun _ hx => .inl hx
  · rintro g q hq _ _ hu ⟨q', hq', -, hu'⟩
    rw [Marking.get?_setFlag, hq] at hq'
    split at hq'
    · cases hq'
      simp only [Object.isUnreachable, Object.has_set, Bool.or_eq_false_iff] at hu'
      rw [Object.isUnreachable, hu'.1] at hu
      cases hu
    · cases hq'
      rw [hu] at hu'
      cases hu'
  · intro g q q' r' hq hq' _ hr' hold hnew
    rw [Marking.get?_setFlag, hq] at hq'
    split at hq'
    · rename_i he
      subst he
      rw [ho] at hq
      cases hq
      rw [hown] at hr'
      cases hr'
      exact ⟨hg, fun hk => a.awake (hr hk)⟩
    · cases hq'
      rw [hold] at hnew
      cases hnew

end Pass

namespace Tracer

variable {tr : Tracer} {good rest : Handle → Prop} {kept : Site → Prop} {m : Marking} {h : Handle}
  {o : Object} {expand : Handle → Marking → Except Fault Marking}

/-- Setting one flag and clearing others may be done in either order, of different objects. -/
theorem setFlag_claim {r : Handle} (hne : r ≠ h) :
    (m.setFlag h .reachableInCluster).claim r = (m.claim r).setFlag h .reachableInCluster := by
  simp only [Marking.setFlag, Marking.claim, Marking.clearFlag, Marking.mk.injEq, and_true,
    Table.setFlag, Table.clearFlag, Table.modify, Table.mk.injEq]
  apply Array.ext_getElem?
  intro i
  have hi : r.index ≠ h.index := fun he => hne (Handle.ext_index he)
  simp only [Array.getElem?_modify]
  by_cases h1 : r.index = i
  · subst h1
    simp [hi.symm]
  · simp [h1]

/-- Reaching a member marks it. -/
theorem reachMember_spec (hexp : Expands tr good expand) (p : Pass tr good rest kept m)
    (ho : m.table.get? h = some o) (hp : m.table.isPermanent h = false) (hown : o.owner.isSome)
    (hg : good h) : Yields (tr.reachMember expand h m) fun m' =>
      Pass tr good rest kept m' ∧ m.Grows tr.schema m' ∧ m'.table.Marked h := by
  obtain ⟨r, hr⟩ := Option.isSome_iff_exists.mp hown
  have hmarked : (m.setFlag h .reachableInCluster).table.Marked h := by
    refine .inr (.inr ⟨o.set .reachableInCluster, ?_, by simp [hr], by simp⟩)
    simp [Marking.get?_setFlag, ho]
  obtain ⟨c, hc, hroot, hmem⟩ := p.orderly.enrolled.listed h o r ho hr
  subst hroot
  simp only [reachMember, ho]
  split
  · rename_i hin
    exact ⟨p, .refl m, .inr (.inr ⟨o, ho, by simp [hr], hin⟩)⟩
  · have hne : c.root ≠ h := by
      rintro rfl
      exact p.orderly.enrolled.root_not_member hc hc hmem
    obtain ⟨q, hq, hqf, hqn⟩ := p.orderly.enrolled.root c hc
    have hq' : (m.setFlag h .reachableInCluster).table.get? c.root = some q := by
      simp [Marking.get?_setFlag, hq, hne]
    split
    · rename_i hkeep
      simp only [hr, hq']
      split
      · obtain ⟨hpr, hgr⟩ := p.good_peer hc (Cluster.mem_objects.mpr (.inr hmem)) hp hg
          (Cluster.mem_objects.mpr (.inl rfl))
        have p1 := p.claim hq hpr hqn hgr
        have ho1 : (m.claim c.root).table.get? h = some o := by
          simp [Marking.claim, Marking.get?_clearFlag, Ne.symm hne, ho]
        have p2 := p1.setInCluster ho1 hp hr hg fun _ => (Marking.free_claim hq hqn).awake
        rw [setFlag_claim hne]
        have g2 : m.Grows tr.schema ((m.claim c.root).setFlag h .reachableInCluster) :=
          (Marking.Grows.claim hpr).trans (.setInCluster hp)
        rw [← setFlag_claim hne] at p2 g2 ⊢
        refine (hexp rest kept c.root _ p2 ⟨c, hc, rfl⟩).mono fun m' hm' => ⟨hm'.1, g2.trans hm'.2, ?_⟩
        have g3 : (m.setFlag h .reachableInCluster).Grows tr.schema
          ((m.setFlag h .reachableInCluster).claim c.root) := Marking.Grows.claim hpr
        exact (g3.trans hm'.2).table.marked hmarked
      · rename_i hawake
        rw [Bool.not_eq_true] at hawake
        exact ⟨p.setInCluster ho hp hr hg fun _ => ⟨q, hq, hawake⟩, .setInCluster hp, hmarked⟩
    · rename_i hkeep
      exact ⟨p.setInCluster ho hp hr hg fun hk => absurd hk hkeep, .setInCluster hp, hmarked⟩

def Pending (pending : List Handle) (rest : Handle → Prop) (h : Handle) : Prop :=
  h ∈ pending ∨ rest h

theorem reachMutable_spec (hexp : Expands tr good expand) (cluster : Handle)
    {pending : List Handle} (p : Pass tr good (Pending pending rest) kept m)
    (hpend : ∀ r ∈ pending, tr.Roots r) (hlive : ∃ o, m.table.get? h = some o)
    (hg : m.table.isPermanent h = false → good h) :
    Yields (tr.reachMutable expand cluster (pending, m) h) fun found =>
      Pass tr good (Pending found.1 rest) kept found.2 ∧ m.Grows tr.schema found.2 ∧
        (∀ r ∈ found.1, tr.Roots r) ∧ found.2.table.Marked h := by
  obtain ⟨o, ho⟩ := hlive
  simp only [reachMutable]
  split
  · rename_i hp
    exact ⟨p, .refl m, hpend, .inl hp⟩
  · rename_i hp
    rw [Bool.not_eq_true] at hp
    simp only [ho]
    split
    · rename_i hu
      have hn := p.owner_eq_none ho hu
      split
      · rename_i hroot
        obtain ⟨c, hc, rfl⟩ := p.orderly.enrolled.registered h o ho hroot
        refine ⟨Tracing.congr (p.claim ho hp hn (hg hp)) fun x => ?_, .claim hp, ?_,
          (Marking.free_claim ho hn).marked⟩
        · simp only [Pending, List.mem_cons, or_assoc]
        · intro r hr
          rcases List.mem_cons.mp hr with rfl | hr
          · exact ⟨c, hc, rfl⟩
          · exact hpend r hr
      · have hgrow : m.Grows tr.schema (m.claim h) := .claim hp
        exact ⟨(p.claim ho hp hn (hg hp)).reach, ⟨hgrow.table, hgrow.weak⟩, hpend,
          (Marking.free_claim ho hn).marked⟩
    · rename_i hu
      rw [Bool.not_eq_true] at hu
      split
      · rename_i hm
        rw [Bool.and_eq_true] at hm
        refine (reachMember_spec hexp p ho hp hm.1 (hg hp)).bind fun m' _ hm' => ?_
        exact ⟨hm'.1, hm'.2.1, hpend, hm'.2.2⟩
      · rename_i hm
        exact ⟨p, .refl m, hpend, Table.marked_of_unclaimed ho hu hm⟩

theorem reachCluster_spec (cluster : Handle) {pending : List Handle}
    (p : Pass tr good (Pending pending rest) kept m) (hpend : ∀ r ∈ pending, tr.Roots r)
    (hroot : tr.Roots h) (hg : m.table.isPermanent h = false → good h) :
    Yields (tr.reachCluster cluster (pending, m) h) fun found =>
      Pass tr good (Pending found.1 rest) kept found.2 ∧ m.Grows tr.schema found.2 ∧
        (∀ r ∈ found.1, tr.Roots r) ∧ found.2.table.Free h := by
  obtain ⟨c, hc, rfl⟩ := hroot
  obtain ⟨o, ho, hf, hn⟩ := p.orderly.enrolled.root c hc
  simp only [reachCluster, ho]
  split
  · rename_i hu
    have hp : m.table.isPermanent c.root = false := by
      cases hp : m.table.isPermanent c.root with
      | false => rfl
      | true =>
        rw [(p.pool c hc hp).of_get? ho] at hu
        cases hu
    refine ⟨Tracing.congr (p.claim ho hp hn (hg hp)) fun x => ?_, .claim hp, ?_,
      Marking.free_claim ho hn⟩
    · simp only [Pending, List.mem_cons, or_assoc]
    · intro r hr
      rcases List.mem_cons.mp hr with rfl | hr
      · exact ⟨c, hc, rfl⟩
      · exact hpend r hr
  · rename_i hu
    rw [Bool.not_eq_true] at hu
    exact ⟨p, .refl m, hpend, o, ho, hn, hu⟩

/-- The bookkeeping of a claimed root has been gone through. -/
theorem traced_root {weak : Site → Prop} {t : Table} {c : Cluster} {cs : Clusters} {s : Schema}
    (he : Enrolled t cs) (hc : c ∈ cs.list) (hm : ∀ m ∈ c.mutables, t.Marked m)
    (hr : ∀ r ∈ c.referenced, t.Free r) : Traced s cs weak t c.root := by
  constructor
  · intro o a k g ho hroot
    obtain ⟨q, hq, hf, -⟩ := he.root c hc
    rw [ho] at hq
    cases hq
    rw [hroot] at hf
    cases hf
  · intro d hd hroot
    rw [Clusters.eq_of_root he.distinct hd hc hroot]
    exact ⟨hm, hr⟩

/-- Going through the mutable objects of a cluster marks each of them. -/
theorem reachMutables_spec (hexp : Expands tr good expand) {c : Cluster} {pending : List Handle}
    (hc : c ∈ tr.clusters.list) (hgc : good c.root) (hpc : m.table.isPermanent c.root = false)
    (p : Pass tr good (Pending pending rest) kept m) (hpend : ∀ r ∈ pending, tr.Roots r) :
    Yields (c.mutables.foldlM (tr.reachMutable expand c.root) (pending, m)) fun found =>
      Pass tr good (Pending found.1 rest) kept found.2 ∧ m.Grows tr.schema found.2 ∧
        (∀ r ∈ found.1, tr.Roots r) ∧ ∀ h ∈ c.mutables, found.2.table.Marked h := by
  have htracks := p.orderly.tracked c hc hpc
  have hfold : Yields (c.mutables.foldlM (tr.reachMutable expand c.root) (pending, m)) _ :=
    Ends.foldlM_each
      (I := fun _ found => Pass tr good (Pending found.1 rest) kept found.2 ∧
        m.Grows tr.schema found.2 ∧ ∀ r ∈ found.1, tr.Roots r)
      (P := fun h found => found.2.table.Marked h)
      (fun h hh _ found hI => by
        obtain ⟨hpass, hgrow, hroots⟩ := hI
        obtain ⟨⟨o, ho⟩, -⟩ := htracks.mutables h hh
        obtain ⟨o', ho', -⟩ := hgrow.table.kept ho
        have hgood : found.2.table.isPermanent h = false → good h := by
          refine hpass.closed.mutables c hc ?_ hgc h hh
          rw [hgrow.table.isPermanent]
          exact hpc
        refine (reachMutable_spec hexp c.root hpass hroots ⟨o', ho'⟩ hgood).mono fun found' hf => ?_
        exact ⟨⟨hf.1, hgrow.trans hf.2.1, hf.2.2.1⟩, hf.2.2.2, fun x hx => hf.2.1.table.marked hx⟩)
      ⟨p, .refl m, hpend⟩
  exact hfold.mono fun found hf => ⟨hf.1.1, hf.1.2.1, hf.1.2.2, hf.2⟩

/-- Going through the referenced clusters of a cluster claims the root of each of them. -/
theorem reachClusters_spec {c : Cluster} {pending : List Handle}
    (hc : c ∈ tr.clusters.list) (hgc : good c.root) (hpc : m.table.isPermanent c.root = false)
    (p : Pass tr good (Pending pending rest) kept m) (hpend : ∀ r ∈ pending, tr.Roots r) :
    Yields (c.referenced.foldlM (tr.reachCluster c.root) (pending, m)) fun found =>
      Pass tr good (Pending found.1 rest) kept found.2 ∧ m.Grows tr.schema found.2 ∧
        (∀ r ∈ found.1, tr.Roots r) ∧ ∀ h ∈ c.referenced, found.2.table.Free h := by
  have htracks := p.orderly.tracked c hc hpc
  have hfold : Yields (c.referenced.foldlM (tr.reachCluster c.root) (pending, m)) _ :=
    Ends.foldlM_each
      (I := fun _ found => Pass tr good (Pending found.1 rest) kept found.2 ∧
        m.Grows tr.schema found.2 ∧ ∀ r ∈ found.1, tr.Roots r)
      (P := fun h found => found.2.table.Free h)
      (fun h hh _ found hI => by
        obtain ⟨hpass, hgrow, hroots⟩ := hI
        have hgood : found.2.table.isPermanent h = false → good h := by
          refine hpass.closed.referenced c hc ?_ hgc h hh
          rw [hgrow.table.isPermanent]
          exact hpc
        refine (reachCluster_spec c.root hpass hroots (htracks.referenced h hh) hgood).mono
          fun found' hf => ?_
        exact ⟨⟨hf.1, hgrow.trans hf.2.1, hf.2.2.1⟩, hf.2.2.2, fun x hx => hf.2.1.table.free hx⟩)
      ⟨p, .refl m, hpend⟩
  exact hfold.mono fun found hf => ⟨hf.1.1, hf.1.2.1, hf.1.2.2, hf.2⟩

def Empties (tr : Tracer) (good : Handle → Prop)
    (run : List Handle → Marking → Except Fault Marking) : Prop :=
  ∀ pending rest kept m, Pass tr good (Pending pending rest) kept m →
    (∀ r ∈ pending, tr.Roots r) →
    Yields (run pending m) fun m' => Pass tr good rest kept m' ∧ m.Grows tr.schema m'

/-- A run over one cluster, with a scratch list of its own, expands the cluster. -/
theorem Empties.expands {run : List Handle → Marking → Except Fault Marking}
    (h : Empties tr good run) : Expands tr good fun owner m => do
      let m ← run [owner] { m with pool := m.pool.acquire }
      return { m with pool := m.pool.release } := by
  intro rest kept r m p hr
  have p' : Pass tr good (Pending [r] rest) kept { m with pool := m.pool.acquire } :=
    Tracing.congr p fun x => by simp [Pending]
  refine (h [r] rest kept _ p' ?_).bind fun m' _ hm' => ?_
  · intro r' hr'
    rw [List.mem_singleton.mp hr']
    exact hr
  · exact ⟨hm'.1, ⟨hm'.2.table, hm'.2.weak⟩⟩

/-- One round of a run over pending clusters: the first of them has been expanded, and those that
it referenced have joined the others. -/
theorem expandFirst_spec (hexp : Expands tr good expand) {c : Cluster} {pending : List Handle}
    (hc : c ∈ tr.clusters.list) (p : Pass tr good (Pending (c.root :: pending) rest) kept m)
    (hpend : ∀ r ∈ pending, tr.Roots r) :
    Yields (c.mutables.foldlM (tr.reachMutable expand c.root) (pending, m) >>=
        c.referenced.foldlM (tr.reachCluster c.root)) fun found =>
      Pass tr good (Pending found.1 rest) kept found.2 ∧ m.Grows tr.schema found.2 ∧
        ∀ r ∈ found.1, tr.Roots r := by
  obtain ⟨hp, hgood, -⟩ := p.queued c.root (.inl (.inl (List.mem_cons_self ..)))
  -- the cluster waits with the outer objects until its lists have been gone through
  have hstart : Pass tr good (Pending pending fun x => x = c.root ∨ rest x) kept m := by
    refine Tracing.congr p fun x => ?_
    simp only [Pending, List.mem_cons, or_assoc, or_left_comm]
  refine (reachMutables_spec hexp hc hgood hp hstart hpend).bind fun found _ hfound => ?_
  obtain ⟨hpass1, hgrow1, hroots1, hdone1⟩ := hfound
  have hp1 : found.2.table.isPermanent c.root = false := by
    rw [hgrow1.table.isPermanent]
    exact hp
  refine (reachClusters_spec hc hgood hp1 hpass1 hroots1).mono fun next hnext => ?_
  obtain ⟨hpass2, hgrow2, hroots2, hdone2⟩ := hnext
  refine ⟨Tracing.finish hpass2 ?_ ?_, hgrow1.trans hgrow2, hroots2⟩
  · rintro x ((hx | hx) | hx)
    · exact .inl (.inl hx)
    · exact .inl (.inr (.inr hx))
    · exact .inr hx
  · rintro x ((hx | rfl | hx) | hx)
    · exact .inl (.inl (.inl hx))
    · exact .inr fun _ => traced_root hpass2.orderly.enrolled hc
        (fun h hh => hgrow2.table.marked (hdone1 h hh)) hdone2
    · exact .inl (.inl (.inr hx))
    · exact .inl (.inr hx)

/-- Expanding the pending clusters leaves none of them waiting. The induction is on the fuel: a
cluster reached from a member is expanded by a call of its own, with less fuel. -/
theorem expandPending_spec (fuel : Nat) : Empties tr good (tr.expandPending fuel) := by
  induction fuel with
  | zero =>
    intro pending rest kept m p hpend
    cases pending with
    | nil =>
      rw [expandPending]
      exact ⟨Tracing.congr p fun x => by simp [Pending], .refl m⟩
    | cons current pending =>
      rw [expandPending]
      exact id
  | succ fuel ih =>
    intro pending rest kept m p hpend
    cases pending with
    | nil =>
      rw [expandPending]
      exact ⟨Tracing.congr p fun x => by simp [Pending], .refl m⟩
    | cons current pending =>
      obtain ⟨c, hc, rfl⟩ := hpend current (List.mem_cons_self ..)
      have hfirst := expandFirst_spec ih.expands hc p fun r hr =>
        hpend r (List.mem_cons_of_mem _ hr)
      rw [expandPending, Clusters.get?_of_mem p.orderly.enrolled.distinct hc]
      simp only
      rw [← bind_assoc]
      refine hfirst.bind fun found _ hfound => ?_
      exact (ih found.1 rest kept found.2 hfound.1 hfound.2.2).mono fun m' hm' =>
        ⟨hm'.1, hfound.2.1.trans hm'.2⟩

/-- Expanding a claimed root marks everything its cluster keeps. -/
theorem expand_spec : Expands tr good tr.expand := by
  intro rest kept r m p hr
  exact (expandPending_spec (m.table.capacity + 1)).expands rest kept r m p hr

end Tracer

end TracingHeap

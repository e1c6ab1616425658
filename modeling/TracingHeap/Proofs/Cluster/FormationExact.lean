import TracingHeap.Proofs.Schema.Lineage

namespace TracingHeap

theorem HandleSet.missing_eq (s : HandleSet) (l : List Handle) :
    s.missing l = (l.filter (!s.contains ·)).eraseDups := by
  induction l generalizing s with
  | nil => rfl
  | cons h rest ih =>
    rw [missing, List.filter_cons]
    cases hin : s.contains h with
    | true => simpa using ih s
    | false =>
      simp only [Bool.false_eq_true, if_false, Bool.not_false, if_true, List.eraseDups_cons]
      rw [ih, List.filter_filter]
      congr 2
      refine List.filter_congr fun g _ => ?_
      rw [contains_insert, Bool.not_or, show (h == g) = (g == h) from BEq.comm]

/-- Without repetitions, a list in ascending order ascends at every step. -/
theorem ascending_mergeSort {l : List Handle} (hl : l.Nodup) :
    (l.mergeSort Handle.le).Pairwise fun a b => a.index < b.index := by
  have hle : (l.mergeSort Handle.le).Pairwise fun a b => Handle.le a b = true := by
    refine List.pairwise_mergeSort (fun a b c hab hbc => ?_) (fun a b => ?_) l
    · simp only [Handle.le, Nat.ble_eq] at hab hbc ⊢
      omega
    · simp only [Handle.le, Nat.ble_eq, Bool.or_eq_true]
      omega
  have hne : (l.mergeSort Handle.le).Nodup := (List.mergeSort_perm _ _).nodup_iff.mpr hl
  refine (hle.and hne).imp fun ⟨hab, hnot⟩ => ?_
  have : ¬ _ = _ := fun he => hnot (Handle.ext_index he)
  simp only [Handle.le, Nat.ble_eq] at hab
  omega

theorem Flags.intersects_doomed (m : Flags) :
    m.intersects .doomed = (m.has .unreachable || m.has .pendingKill) := by
  cases hm : m.has .unreachable || m.has .pendingKill with
  | true =>
    rcases Bool.or_eq_true_iff.mp hm with h | h <;> exact Flags.intersects_of_has h (by decide)
  | false =>
    obtain ⟨hu, hk⟩ := Bool.or_eq_false_iff.mp hm
    unfold intersects
    rw [bne_eq_false_iff_eq]
    refine BitVec.eq_of_getLsbD_eq fun i hi => ?_
    rw [BitVec.getLsbD_and, BitVec.getLsbD_zero]
    by_cases h0 : i = Flag.unreachable.bit
    · rw [h0, show m.bits.getLsbD Flag.unreachable.bit = false from hu, Bool.false_and]
    by_cases h1 : i = Flag.pendingKill.bit
    · rw [h1, show m.bits.getLsbD Flag.pendingKill.bit = false from hk, Bool.false_and]
    have : Flags.doomed.bits.getLsbD i = false := by
      simp only [doomed, union, single, BitVec.getLsbD_or, BitVec.getLsbD_twoPow]
      simp [Ne.symm h0, Ne.symm h1]
    rw [this, Bool.and_false]

namespace Table

variable {t : Table} {h : Handle}

/-- The object may join a cluster: it is collectable, in no cluster, and neither dead nor killed. -/
def MayJoin (t : Table) (h : Handle) : Prop :=
  ∃ o, t.get? h = some o ∧ t.isPermanent h = false ∧ o.owner = none ∧ o.has .clusterRoot = false ∧
    o.isUnreachable = false ∧ o.has .pendingKill = false

theorem clusterable_iff : t.clusterable h = .ok () ↔ t.MayJoin h := by
  unfold clusterable MayJoin
  cases ho : t.get? h with
  | none => exact ⟨nofun, fun ⟨_, hp, _⟩ => nomatch hp⟩
  | some o =>
    simp only [Option.some.injEq, exists_eq_left', Flags.intersects_doomed]
    change _ ↔ _ ∧ _ ∧ _ ∧ o.flags.has .unreachable = false ∧ o.flags.has .pendingKill = false
    cases t.isPermanent h <;> cases o.owner <;> cases o.has .clusterRoot <;>
      cases o.flags.has .unreachable <;> cases o.flags.has .pendingKill <;>
      simp [throw, throwThe, MonadExceptOf.throw, bind, Except.bind, pure, Except.pure]

/-- The first of some objects that may not join is refused. -/
theorem forM_clusterable (l : List Handle) :
    (l.forM t.clusterable = .ok () ∧ ∀ h ∈ l, t.MayJoin h) ∨
      (∃ e, l.forM t.clusterable = .error e) ∧ ¬ ∀ h ∈ l, t.MayJoin h := by
  induction l with
  | nil => exact .inl ⟨rfl, fun h hh => absurd hh List.not_mem_nil⟩
  | cons h rest ih =>
    change ((t.clusterable h >>= fun _ => rest.forM t.clusterable) = _ ∧ _) ∨
      (∃ e, (t.clusterable h >>= fun _ => rest.forM t.clusterable) = _) ∧ _
    cases hx : t.clusterable h with
    | error e =>
      refine .inr ⟨⟨e, rfl⟩, fun hall => ?_⟩
      rw [clusterable_iff.mpr (hall h List.mem_cons_self)] at hx
      cases hx
    | ok =>
      rcases ih with ⟨hok, hall⟩ | ⟨⟨e, he⟩, hnot⟩
      · refine .inl ⟨hok, fun g hg => ?_⟩
        rcases List.mem_cons.mp hg with rfl | hg
        · exact clusterable_iff.mp hx
        · exact hall g hg
      · exact .inr ⟨⟨e, he⟩, fun hall => hnot fun g hg => hall g (List.mem_cons_of_mem _ hg)⟩

end Table

namespace Cluster

variable {s : Schema} {t : Table} {c : Cluster}

theorem founded_of_form {root : Handle} {members : List Handle} (hs : s.Regular)
    (hfit : ∀ h o, t.get? h = some o → s.Fits o) (hok : form s t root members = .ok c) :
    c.Founded s t := by
  rcases form_cases hs hfit root members with ⟨made, hmade, hfounded⟩ | ⟨e, he⟩ | ⟨f, hf, -⟩
  · rw [hok] at hmade
    cases hmade
    exact hfounded
  · rw [hok] at he
    cases he
  · rw [hok] at hf
    cases hf

structure Gathers (s : Schema) (t : Table) (root : Handle) (members : List Handle)
    (c : Cluster) : Prop extends c.Founded s t where
  root_eq : c.root = root
  members_eq : c.members = (members.filter (· != root)).eraseDups
  mutables_ascend : c.mutables.Pairwise fun a b => a.index < b.index
  referenced_ascend : c.referenced.Pairwise fun a b => a.index < b.index

theorem Gathers.mem_objects {root : Handle} {members : List Handle}
    (a : c.Gathers s t root members) {h : Handle} : h ∈ c.objects ↔ h ∈ root :: members := by
  rw [Cluster.mem_objects, a.root_eq, a.members_eq, List.mem_eraseDups, List.mem_filter,
    List.mem_cons, bne_iff_ne]
  tauto

/-- Forming a cluster fails if an object may not join, or one of them cannot be walked. -/
theorem form_iff (hs : s.Regular) (hfit : ∀ h o, t.get? h = some o → s.Fits o) (root : Handle)
    (members : List Handle) :
    ((∀ h ∈ root :: members, t.MayJoin h) ∧ (∀ h ∈ root :: members, t.Walkable s h) ∧
        ∃ made, form s t root members = .ok made ∧ made.Gathers s t root members) ∨
      ((∀ h ∈ root :: members, t.MayJoin h) ∧ (¬ ∀ h ∈ root :: members, t.Walkable s h) ∧
        ∃ f : Fault, form s t root members = .error (.fault f) ∧ f.IsOverflow) ∨
      (¬ ∀ h ∈ root :: members, t.MayJoin h) ∧
        ∃ e, form s t root members = .error (.error e) := by
  let bare : Cluster := ⟨root, (HandleSet.ofList [root]).missing members, [], []⟩
  have hmembers : bare.members = (members.filter (· != root)).eraseDups := by
    refine (HandleSet.missing_eq _ _).trans (congrArg _ (List.filter_congr fun h _ => ?_))
    rw [HandleSet.contains_ofList, List.contains_cons, List.contains_nil, Bool.or_false]
    rfl
  have hobjects : ∀ {h}, h ∈ bare.objects ↔ h ∈ root :: members := by
    intro h
    rw [Cluster.mem_objects, hmembers, List.mem_eraseDups, List.mem_filter, List.mem_cons, bne_iff_ne]
    tauto
  rcases t.forM_clusterable (root :: members) with ⟨hok, hjoin⟩ | ⟨⟨e, he⟩, hnot⟩
  · have hform : form s t root members = (bare.noteAll s t >>= fun c => pure c.sorted) := by
      unfold form
      rw [hok]
      rfl
    rcases noteAll_cases hs hfit bare with ⟨c, hc, hnoted⟩ | ⟨f, hf, hover⟩
    · have hmade : form s t root members = .ok c.sorted := by
        rw [hform, hc]
        rfl
      have hwalk := walkable_of_noteAll hs hfit hc
      exact .inl ⟨hjoin, fun h hh => hwalk h (hobjects.mpr hh), _, hmade,
        founded_of_form hs hfit hmade, hnoted.root, hnoted.members.trans hmembers,
        ascending_mergeSort (hnoted.nodup_mutables .nil),
        ascending_mergeSort (hnoted.nodup_referenced .nil)⟩
    · refine .inr (.inl ⟨hjoin, fun hwalk => ?_, f, ?_, hover⟩)
      · obtain ⟨c, hc⟩ := noteAll_of_walkable (c := bare) hs hfit fun h hh => hwalk h (hobjects.mp hh)
        rw [hf] at hc
        cases hc
      · rw [hform, hf]
        rfl
  · refine .inr (.inr ⟨hnot, e, ?_⟩)
    unfold form
    rw [he]
    rfl

theorem adopt_eq (c : Cluster) (t : Table) : c.adopt t = { t with slots := (c.adopt t).slots } := by
  have hmembers : ∀ (l : List Handle) (t : Table),
      l.foldl (fun t h => t.modify h (·.setOwner (some c.root))) t = { t with
        slots := (l.foldl (fun t h => t.modify h (·.setOwner (some c.root))) t).slots } := by
    intro l
    induction l with
    | nil => exact fun _ => rfl
    | cons h rest ih => exact fun t => ih (t.modify h (·.setOwner (some c.root)))
  unfold adopt
  rw [Table.setFlag, Table.modify, hmembers]

end Cluster

namespace Cluster.Gathers

variable {s : Schema} {t : Table} {cs : Clusters} {c : Cluster} {root : Handle}
  {members : List Handle} (a : c.Gathers s t root members)

include a

/-- The standalone objects that a new cluster knows of. -/
theorem mem_mutables_iff (ht : t.Tidy) (he : Enrolled t cs) {m : Handle} : m ∈ c.mutables ↔
    c.Leads s t m ∧ ∀ e ∈ cs.list, m ∉ e.objects := by
  have halone : t.rootOf m = none ↔ ∀ e ∈ cs.list, m ∉ e.objects := by
    refine ⟨fun hn e hin hm => ?_, fun hall => ?_⟩
    · rw [he.rootOf_of_mem hin hm] at hn
      cases hn
    · cases hroot : t.rootOf m with
      | none => rfl
      | some r =>
        obtain ⟨e, hin, -, hm⟩ := he.cluster_of_rootOf hroot
        exact absurd hm (hall e hin)
  rw [a.noted.mutables_iff rfl ht, halone, leads_bare]
  exact or_iff_right List.not_mem_nil

/-- The clusters that a new cluster knows of. -/
theorem mem_referenced_iff (ht : t.Tidy) (he : Enrolled t cs) {r : Handle} : r ∈ c.referenced ↔
    ∃ e ∈ cs.list, e.root = r ∧ ∃ g ∈ e.objects, c.Leads s t g := by
  rw [a.noted.referenced_iff rfl ht, or_iff_right List.not_mem_nil]
  simp only [leads_bare]
  constructor
  · rintro ⟨g, hleads, hroot⟩
    obtain ⟨e, he, her, hg⟩ := he.cluster_of_rootOf hroot
    exact ⟨e, he, her, g, hg, hleads⟩
  · rintro ⟨e, hin, rfl, g, hg, hleads⟩
    exact ⟨g, hleads, he.rootOf_of_mem hin hg⟩

/-- What the new cluster makes of the objects. -/
theorem get?_adopt (h : Handle) : (c.adopt t).get? h = (t.get? h).map fun o =>
    if h = root then o.set .clusterRoot
    else if h ∈ members then o.setOwner (some root) else o := by
  have hmem : h ≠ c.root → (h ∈ c.members ↔ h ∈ members) := by
    intro hne
    rw [a.members_eq, List.mem_eraseDups, List.mem_filter, bne_iff_ne, ← a.root_eq]
    exact and_iff_left hne
  cases ho : t.get? h with
  | none => exact a.evolves.gone h ho
  | some o =>
    obtain ⟨o', ho', rfl⟩ := a.evolves.kept h o ho
    rw [ho', adopted, Option.map_some, a.root_eq]
    by_cases he : h = root
    · rw [if_pos he, if_pos he]
    · rw [if_neg he, if_neg he, if_congr (hmem (a.root_eq ▸ he)) rfl rfl]

end Cluster.Gathers

namespace Collector

variable {c d : Collector} {root : Handle} {members : List Handle}

theorem formCluster_made {made : Cluster} (h : Cluster.form c.schema c.table root members = .ok made) :
    c.formCluster root members = .ok (.ok (),
      { c with table := made.adopt c.table, clusters := c.clusters.insert made }) := by
  rw [formCluster, h]

theorem formCluster_fault {f : Fault}
    (h : Cluster.form c.schema c.table root members = .error (.fault f)) :
    c.formCluster root members = .error f := by
  rw [formCluster, h]

theorem formCluster_of_refused {e : HeapError}
    (h : Cluster.form c.schema c.table root members = .error (.error e)) :
    c.formCluster root members = .ok (.error e, c) := by
  rw [formCluster, h]
  rfl

/-- A call has formed a cluster and changed nothing else. -/
structure Gathered (c : Collector) (root : Handle) (members : List Handle) (x : Cluster)
    (d : Collector) : Prop where
  root_eq : x.root = root
  /-- The members are those that are named, each where it comes first. -/
  members_eq : x.members = (members.filter (· != root)).eraseDups
  mutables_ascend : x.mutables.Pairwise fun a b => a.index < b.index
  referenced_ascend : x.referenced.Pairwise fun a b => a.index < b.index
  mem_mutables : ∀ m, m ∈ x.mutables ↔
    x.Leads c.schema c.table m ∧ ∀ e ∈ c.clusters.list, m ∉ e.objects
  mem_referenced : ∀ r, r ∈ x.referenced ↔ ∃ e ∈ c.clusters.list, e.root = r ∧
    ∃ g ∈ e.objects, x.Leads c.schema c.table g
  objects : ∀ h, d.table.get? h = (c.table.get? h).map fun o =>
    if h = root then o.set .clusterRoot
    else if h ∈ members then o.setOwner (some root) else o
  clusters : d.clusters = ⟨x :: c.clusters.list⟩
  rest : d = { c with
    table := { c.table with slots := d.table.slots }, clusters := d.clusters }

theorem Sound.gathered {x : Cluster} (hc : c.Sound)
    (a : x.Gathers c.schema c.table root members) : c.Gathered root members x
      { c with table := x.adopt c.table, clusters := c.clusters.insert x } := by
  have ho := hc.settled.orderly
  refine ⟨a.root_eq, a.members_eq, a.mutables_ascend, a.referenced_ascend,
    fun m => a.mem_mutables_iff ho.tidy ho.enrolled,
    fun r => a.mem_referenced_iff ho.tidy ho.enrolled, a.get?_adopt,
    Clusters.insert_founded ho.enrolled a.toFounded, ?_⟩
  exact congrArg (fun t => { c with table := t, clusters := c.clusters.insert x })
    (x.adopt_eq c.table)

end Collector

/-- The elements of the struct arrays in the layout of the object have sizes. -/
def Table.Sized (s : Schema) (t : Table) (h : Handle) : Prop :=
  ∀ o, t.get? h = some o → (s.lineage o.classId).ElementsFit

theorem Reached.walkable_iff {c : Collector} (hr : Reached c) {h : Handle} :
    c.table.Walkable c.schema h ↔ c.table.Sized c.schema h := by
  refine forall_congr' fun o => forall_congr' fun ho => ?_
  obtain ⟨e, he⟩ := Option.isSome_iff_exists.mp (hr.conforms ho).known
  rw [Schema.walks_iff he, hr.registered.layered.stream_ok_iff _ e he]

/-- Forming a cluster. The call succeeds just when the root and all named members may join a cluster and
have layouts that can be walked; where only a layout stands against it, a size overflows. The new cluster
is told by the arguments and the references of its objects, and nothing else has changed. The heap is one of
honest classes, whose pool was never closed while the object in slot 4294967295 was in a cluster. -/
theorem Reached.cluster_is_exact {c : Collector} (hr : Reached c) (root : Handle)
    (members : List Handle) :
    ((∃ d, c.formCluster root members = .ok (.ok (), d)) ↔
      (∀ h ∈ root :: members, c.table.MayJoin h) ∧
        ∀ h ∈ root :: members, c.table.Sized c.schema h) ∧
    ((∃ f, c.formCluster root members = .error f) ↔
      (∀ h ∈ root :: members, c.table.MayJoin h) ∧
        ¬ ∀ h ∈ root :: members, c.table.Sized c.schema h) ∧
    (∀ f, c.formCluster root members = .error f → f.IsOverflow) ∧
    ∀ d, c.formCluster root members = .ok (.ok (), d) → ∃ x, c.Gathered root members x d := by
  have ho := hr.sound.settled.orderly
  simp only [← hr.walkable_iff]
  rcases Cluster.form_iff ho.regular ho.fits root members with ⟨hjoin, hwalk, made, hmade, a⟩ |
    ⟨hjoin, hwalk, f, hf, hover⟩ | ⟨hjoin, e, he⟩
  · obtain ⟨d, hcall, hgathered⟩ : ∃ d, c.formCluster root members = .ok (.ok (), d) ∧
        c.Gathered root members made d :=
      ⟨_, Collector.formCluster_made hmade, hr.sound.gathered a⟩
    rw [hcall]
    refine ⟨iff_of_true ⟨d, rfl⟩ ⟨hjoin, hwalk⟩, iff_of_false nofun fun h => h.2 hwalk, nofun, ?_⟩
    intro e he
    cases he
    exact ⟨made, hgathered⟩
  · rw [Collector.formCluster_fault hf]
    refine ⟨iff_of_false ?_ fun h => hwalk h.2, iff_of_true ⟨f, rfl⟩ ⟨hjoin, hwalk⟩, ?_, ?_⟩
    · rintro ⟨d, hd⟩
      cases hd
    · intro g hg
      cases hg
      exact hover
    · intro d hd
      cases hd
  · rw [Collector.formCluster_of_refused he]
    have hsome : ∀ d, (.ok (.error e, c) : Outcome Unit) ≠ .ok (.ok (), d) := by
      intro d hd
      cases Except.ok.inj hd
    have hnone : ∀ f, (.ok (.error e, c) : Outcome Unit) ≠ .error f := nofun
    exact ⟨iff_of_false (fun ⟨d, hd⟩ => hsome d hd) fun h => hjoin h.1,
      iff_of_false (fun ⟨f, hf⟩ => hnone f hf) fun h => hjoin h.1,
      fun f hf => absurd hf (hnone f), fun d hd => absurd hd (hsome d)⟩

open Collector Sample in
/-- One member is named twice and the root among the members; one of them refers to the root of another
cluster and one to an object that stands alone. -/
theorem cluster_is_exact_neighbours : ∃ c d x, Reached c ∧
    c.formCluster one [two, one, two] = .ok (.ok (), d) ∧ c.Gathered one [two, one, two] x d := by
  have hrun : runs .serial node (nodes 4 ++ [.formCluster three [], .setReference one 0 (some four),
      .setReference two 0 (some three)]) (fun c =>
        match c.formCluster one [two, one, two] with
        | .ok (.ok (), _) => true
        | _ => false) = true := by
    decide +kernel
  obtain ⟨c, hr, htest⟩ := Reached.of_runs node_honest (by decide +kernel) hrun
  split at htest
  · rename_i d hd
    obtain ⟨x, hx⟩ := (hr.cluster_is_exact one [two, one, two]).2.2.2 d hd
    exact ⟨c, d, x, hr, hd, hx⟩
  · cases htest

namespace Sample

theorem ledger_honest : ledger.Honest :=
  ⟨⟨⟨trivial, trivial, trivial⟩, trivial⟩, nofun⟩

end Sample

open Collector Sample in
/-- An object that may join a cluster, but has a layout that cannot be walked. -/
theorem cluster_overflows_ledger : ∃ c, Reached c ∧ (∀ h ∈ [one], c.table.MayJoin h) ∧
    c.formCluster one [] = .error (.overflow .add) := by
  have hrun : runs .serial ledger [.createObject ⟨0⟩ "ledger"] (fun c =>
      (match c.table.clusterable one with
        | .ok () => true
        | .error _ => false) &&
      match c.formCluster one [] with
      | .error (.overflow .add) => true
      | _ => false) = true := by
    decide +kernel
  obtain ⟨c, hr, htest⟩ := Reached.of_runs ledger_honest (by decide +kernel) hrun
  obtain ⟨hfree, hcall⟩ := Bool.and_eq_true_iff.mp htest
  refine ⟨c, hr, fun h hh => ?_, ?_⟩
  · rw [List.mem_singleton.mp hh]
    split at hfree
    · rename_i hok
      exact Table.clusterable_iff.mp hok
    · cases hfree
  · split at hcall
    · assumption
    · cases hcall

end TracingHeap

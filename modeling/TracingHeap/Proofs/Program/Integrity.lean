import TracingHeap.Proofs.Program.History

namespace TracingHeap

/-- A reference that is heeded: a weak one, or a strong one of an object outside the permanent pool. The
object that holds it is not flagged. -/
structure Heeded (s : Schema) (t : Table) (h : Handle) (k : Strength) (g : Handle) : Prop where
  awake : t.Awake h
  kind : k = .weak ∨ t.isPermanent h = false
  edge : Edge s t h k g

namespace Collector

variable {c d : Collector} {g h : Handle} {k : Strength}

/-- No reference that is heeded leads to an object that has just been made. -/
theorem not_heeded_created (hc : c.Sound) {id : ClassId} {name : String}
    (hd : c.createObject id name = .ok (.ok g, d)) : ¬ Heeded d.schema d.table h k g := by
  intro hh
  obtain ⟨ha, hk, he⟩ := hh
  unfold createObject at hd
  split at hd
  · cases hd
  · cases hd
  · rename_i cells hcells
    cases hmade : c.table.allocate id name cells with
    | mk made t' =>
      rw [hmade] at hd
      cases made with
      | none => cases hd
      | some g' =>
        cases hd
        have hadds := Table.allocate_some hc.settled.orderly.tidy hmade
        obtain ⟨-, hblank⟩ := hc.settled.orderly.regular.instantiate hcells g name
        have hold := hadds.edge_back (fun a x => Cell.slotAt?_of_blank hblank a x) he
        have hsource := hold
        obtain ⟨o, a, ho, -⟩ := hsource
        have hawake : c.table.Awake h := ⟨o, ho, ha.of_get? (hadds.kept ho)⟩
        obtain ⟨q, hq, -⟩ :=
          hc.settled.linked h k g hold hawake (hk.imp_right (hadds.isPermanent h).symm.trans)
        rw [show c.table.get? g = none from hadds.vacant] at hq
        cases hq

end Collector

def Collector.heeds (c : Collector) (h g : Handle) : Bool :=
  c.refers h .strong g && decide (c.table.Awake h ∧ c.table.isPermanent h = false)

theorem Collector.heeded_of_heeds {c : Collector} {h g : Handle} (hh : c.heeds h g = true) :
    Heeded c.schema c.table h .strong g := by
  obtain ⟨hrefers, hrest⟩ := Bool.and_eq_true_iff.mp hh
  obtain ⟨hawake, hperm⟩ := of_decide_eq_true hrest
  exact ⟨hawake, .inr hperm, edge_of_refers hrefers⟩

/-- Whatever calls have been made, every reference that is heeded leads to an object that is there and
not flagged. No call that may be made then comes upon a reference to an object that is not there, and
when a slot of the table is filled, no reference that is heeded names it yet. Calls are allowed on two
conditions that a program may fail without noticing: the classes are honest, without which the statement
fails, and the pool is closed only while the object in slot 4294967295 is in no cluster. -/
theorem Reached.references_intact {c : Collector} (hr : Reached c) :
    (∀ h k g, Heeded c.schema c.table h k g → c.table.Awake g) ∧
      (∀ op f, op.Allowed c → c.perform op = .error f → ¬ f.Corrupt) ∧
      ∀ id name g d, c.createObject id name = .ok (.ok g, d) →
        ∀ h k, ¬ Heeded d.schema d.table h k g := by
  have hc := hr.sound
  refine ⟨fun h k g hh => ?_, fun op f ha hf => ?_, fun id name g d hd h k => ?_⟩
  · exact hc.settled.linked h k g hh.edge hh.awake hh.kind
  · exact (Collector.perform_keeps hc ha).not_bad hf
  · exact Collector.not_heeded_created hc hd

/-- A rooted object holds a weak reference to one that nothing keeps. -/
def forgetting : List Operation :=
  Sample.nodes 3 ++ [.addRoot Sample.one, .setReference Sample.one 0 (some Sample.two),
    .setReference Sample.one 1 (some Sample.three), .collect .empty true]

theorem references_intact_forgetting : ∃ (c d : Collector), Reached c ∧ c.table.capacity = 4 ∧
    c.createObject ⟨0⟩ "node" = .ok (.ok Sample.three, d) ∧
      ∀ h k, ¬ Heeded d.schema d.table h k Sample.three := by
  have hrun : Collector.runs .serial Sample.node forgetting (fun c => c.table.capacity == 4 &&
      match c.createObject ⟨0⟩ "node" with
      | .ok (.ok h, _) => decide (h = Sample.three)
      | _ => false) = true := by
    decide +kernel
  obtain ⟨c, hr, hc⟩ := Reached.of_runs Sample.node_honest (by decide) hrun
  obtain ⟨hcapacity, hmade⟩ := Bool.and_eq_true_iff.mp hc
  split at hmade
  · rename_i h d hd
    cases of_decide_eq_true hmade
    exact ⟨c, d, hr, beq_iff_eq.mp hcapacity, hd, hr.references_intact.2.2 _ _ _ _ hd⟩
  · cases hmade

/-- A member of a cluster holds a live object in its bag, and gets a flag of the caller's after the
cluster was formed. -/
def flagging : List Operation :=
  Sample.nodes 3 ++ [.putCell Sample.two 2 (.container (.bag #[some Sample.three] #[])),
    .formCluster Sample.one [Sample.two], .addRoot Sample.one,
    .setFlags Sample.two (.single .transient)]

open Collector Sample in
/-- A class that goes by that flag lists a strong reference that the cluster has not noted. A collection
frees the target and leaves the reference, which leads to another object later. -/
theorem heeded_yet_freed : ∃ (c d e : Collector) (stats : Statistics),
    (start .serial 1).performAll (.registerClass (fickle (·.has .transient)) :: flagging) = .ok c ∧
    c.collect .empty true = .ok (stats, d) ∧ Heeded d.schema d.table two .strong three ∧
    d.table.contains three = false ∧ d.createObject ⟨0⟩ "late" = .ok (.ok three, e) ∧
    Heeded e.schema e.table two .strong three := by
  have hrun : runs .serial (fickle (·.has .transient)) flagging (fun c =>
      c.leaves .empty true fun d => (d.heeds two three && !d.table.contains three) &&
        match d.createObject ⟨0⟩ "late" with
        | .ok (.ok h, e) => h == three && e.heeds two three
        | _ => false) = true := by
    decide +kernel
  obtain ⟨c, hc, hleaves⟩ := performAll_of_runs hrun
  obtain ⟨stats, d, hcollect, hd⟩ := collect_of_leaves hleaves
  obtain ⟨hbefore, hlate⟩ := Bool.and_eq_true_iff.mp hd
  simp only [Bool.and_eq_true, Bool.not_eq_true'] at hbefore
  split at hlate
  · rename_i h e hcreate
    simp only [Bool.and_eq_true, beq_iff_eq] at hlate
    obtain ⟨rfl, hagain⟩ := hlate
    exact ⟨c, d, e, stats, hc, hcollect, heeded_of_heeds hbefore.1, hbefore.2, hcreate,
      heeded_of_heeds hagain⟩
  · cases hlate

/-- The registered clusters agree with the objects, and those outside the permanent pool know what is
alive and where their references lead. -/
structure Clusters.Consistent (s : Schema) (t : Table) (cs : Clusters) : Prop where
  distinct : (cs.list.map (·.root)).Nodup
  roots : ∀ h, t.has h .clusterRoot = true ↔ ∃ c ∈ cs.list, c.root = h
  owners : ∀ h r, (∃ o, t.get? h = some o ∧ o.owner = some r) ↔
    ∃ c ∈ cs.list, c.root = r ∧ h ∈ c.members
  nodup : ∀ c ∈ cs.list, c.members.Nodup ∧ c.referenced.Nodup ∧ c.mutables.Nodup
  disjoint : ∀ c ∈ cs.list, ∀ d ∈ cs.list, c ≠ d → c.members.Disjoint d.members
  apart : ∀ c ∈ cs.list, ∀ d ∈ cs.list, d.root ∉ c.members
  alive : ∀ c ∈ cs.list, t.isPermanent c.root = false → ∀ m ∈ c.members, t.Awake m
  referenced : ∀ c ∈ cs.list, t.isPermanent c.root = false →
    ∀ r ∈ c.referenced, ∃ d ∈ cs.list, d.root = r
  mutables : ∀ c ∈ cs.list, t.isPermanent c.root = false → ∀ m ∈ c.mutables, t.Awake m
  covered : ∀ c ∈ cs.list, t.isPermanent c.root = false → ∀ h ∈ c.objects, ∀ g,
    Edge s t h .strong g → t.isPermanent g = false → g ∉ c.objects →
      g ∈ c.mutables ∨ ∃ r ∈ c.referenced, t.rootOf g = some r

/-- Whatever calls have been made, the registered clusters agree with the objects. For what they know of
references the classes have to be honest, and the object in slot 4294967295 has to be in no cluster when the
pool is closed. -/
theorem Reached.clusters_consistent {c : Collector} (hr : Reached c) :
    c.clusters.Consistent c.schema c.table := by
  have hs := hr.sound.settled
  have ho := hs.orderly
  have he := ho.enrolled
  refine ⟨he.distinct, fun h => ⟨fun hf => ?_, fun hc => ?_⟩, fun h r => ⟨fun hown => ?_, fun hm => ?_⟩,
    he.nodup, fun a ha b hb hne h hha hhb => ?_, fun a ha b hb => he.root_not_member hb ha,
    fun e hm _ m hmm => hs.awake_objects hm (Cluster.mem_objects.mpr (.inr hmm)),
    fun e hm hp => (ho.tracked e hm hp).referenced, hs.mutables,
    fun e hm hp => (ho.tracked e hm hp).covered⟩
  · cases hget : c.table.get? h with
    | none => simp [Table.has, hget] at hf
    | some o =>
      rw [Table.has_of_get? hget] at hf
      exact he.registered h o hget hf
  · obtain ⟨e, hm, hroot⟩ := hc
    obtain ⟨o, hget, hf, -⟩ := he.root e hm
    rw [← hroot, Table.has_of_get? hget]
    exact hf
  · obtain ⟨o, hget, hown⟩ := hown
    exact he.listed h o r hget hown
  · obtain ⟨e, hm, hroot, hmem⟩ := hm
    obtain ⟨o, hget, hown, -⟩ := he.member e hm h hmem
    exact ⟨o, hget, hroot ▸ hown⟩
  · have hra := he.rootOf_member ha hha
    have hrb := he.rootOf_member hb hhb
    rw [hra] at hrb
    exact hne (Clusters.eq_of_root he.distinct ha hb (Option.some.inj hrb))

/-- One cluster refers to another, and is made to refer to a standalone object later. -/
def neighbours : List Operation :=
  Sample.nodes 4 ++ [.formCluster Sample.one [], .setReference Sample.three 0 (some Sample.one),
    .formCluster Sample.two [Sample.three], .addRoot Sample.two,
    .setReference Sample.two 0 (some Sample.four), .collect .empty true]

theorem clusters_consistent_neighbours : ∃ c : Collector, Reached c ∧
    c.clusters.list = [⟨Sample.two, [Sample.three], [Sample.one], [Sample.four]⟩,
      ⟨Sample.one, [], [], []⟩] ∧ c.clusters.Consistent c.schema c.table := by
  have hrun : Collector.runs .serial Sample.node neighbours (fun c =>
      decide (c.clusters.list = [⟨Sample.two, [Sample.three], [Sample.one], [Sample.four]⟩,
        ⟨Sample.one, [], [], []⟩])) = true := by
    decide +kernel
  obtain ⟨c, hr, hc⟩ := Reached.of_runs Sample.node_honest (by decide) hrun
  exact ⟨c, hr, of_decide_eq_true hc, hr.clusters_consistent⟩

open Collector Sample in
/-- A member of a cluster comes to refer strongly to a live object outside by being flagged, and the cluster
does not know. -/
theorem strong_yet_unnoted : ∃ c : Collector,
    (start .serial 1).performAll (.registerClass (fickle (·.has .transient)) :: flagging) = .ok c ∧
    c.clusters.list = [⟨one, [two], [], []⟩] ∧ Edge c.schema c.table two .strong three ∧
    c.table.Awake three ∧ ¬ c.clusters.Consistent c.schema c.table := by
  have hrun : runs .serial (fickle (·.has .transient)) flagging (fun c =>
      c.refers two .strong three && decide (c.clusters.list = [⟨one, [two], [], []⟩] ∧
        c.table.Awake three ∧ c.table.isPermanent one = false ∧
        c.table.isPermanent three = false)) = true := by
    decide +kernel
  obtain ⟨c, hc, htest⟩ := performAll_of_runs hrun
  obtain ⟨hrefers, hrest⟩ := Bool.and_eq_true_iff.mp htest
  obtain ⟨hlist, hawake, hroot, hthree⟩ := of_decide_eq_true hrest
  have hedge := edge_of_refers hrefers
  refine ⟨c, hc, hlist, hedge, hawake, fun hconsistent => ?_⟩
  have hmem : (⟨one, [two], [], []⟩ : Cluster) ∈ c.clusters.list := by simp [hlist]
  have hcovered := hconsistent.covered _ hmem hroot two (by decide) three hedge hthree (by decide)
  simp at hcovered

end TracingHeap

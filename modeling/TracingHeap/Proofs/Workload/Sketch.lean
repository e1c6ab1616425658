import TracingHeap.Proofs.Cluster.FormationExact
import TracingHeap.Proofs.Mark.FaultSources
import TracingHeap.Proofs.Purge.StepCount
import TracingHeap.Workload.Graph

namespace TracingHeap

structure Schema.IsNodes (s : Schema) : Prop where
  regular : s.Regular
  entry : ∃ e, s = ⟨#[e]⟩ ∧ e.spec = nodeSpec ∧ e.stream.isOk = true ∧ e.lifecycle.readiness = none

theorem nodeSpec_honest : nodeSpec.Honest :=
  ⟨⟨trivial, trivial, trivial, trivial⟩, fun f hf => by cases hf⟩

theorem register_nodeSpec : ∃ s, Schema.empty.register nodeSpec = .ok (⟨0⟩, s) ∧ s.IsNodes := by
  have htest : (Schema.empty.register nodeSpec).toOption.any (fun found =>
      found.1 == ⟨0⟩ && found.2.classes.all fun e =>
        e.stream.isOk && e.lifecycle.readiness.isNone) = true := by
    decide +kernel
  obtain ⟨⟨id, s⟩, hs, htest⟩ := except_of_toOption_any htest
  obtain ⟨hid, hall⟩ := Bool.and_eq_true_iff.mp htest
  cases eq_of_beq hid
  obtain ⟨e, rfl, hspec, hbuilt⟩ := Schema.register_ok hs
  have hhonest : e.spec.Honest := hspec ▸ nodeSpec_honest
  refine ⟨_, hs, Schema.Regular.empty.push hbuilt hhonest, e, rfl, hspec, ?_⟩
  simpa [Schema.empty] using hall

namespace Schema.IsNodes

variable {s : Schema} {o : Object}

theorem streamed (hs : s.IsNodes) : s.Streamed := by
  obtain ⟨e, rfl, -, hstream, -⟩ := hs.entry
  intro d hd
  rw [List.mem_singleton.mp (Array.mem_def.mp hd)]
  exact hstream

theorem prompt (hs : s.IsNodes) : s.Prompt := by
  obtain ⟨e, rfl, -, -, hready⟩ := hs.entry
  intro id
  unfold lifecycle get?
  cases hid : id.index with
  | zero => exact hready
  | succ n => rfl

/-- The cells of a new node. -/
theorem instantiate (hs : s.IsNodes) :
    s.instantiate ⟨0⟩ = .ok #[.refs #[], .ref none, .value 0] := by
  obtain ⟨e, rfl, hspec, -, -⟩ := hs.entry
  have hget : (⟨#[e]⟩ : Schema).get? ⟨0⟩ = some e := rfl
  have hcells : (⟨#[e]⟩ : Schema).newCells ⟨0⟩ = [.refs #[], .ref none, .value 0] := by
    rw [newCells_root hget (hspec ▸ rfl), hspec]
    rfl
  have hwidth : e.width = 3 := by
    rw [← hs.regular.length_newCells ⟨0⟩ e hget, hcells]
    rfl
  have hroom : reserve e.width cellBytes = .ok () := by
    rw [hwidth]
    decide
  unfold Schema.instantiate Schema.get
  rw [hget]
  change ((reserve e.width cellBytes).mapError Failure.fault >>= _) = _
  rw [hroom]
  exact congrArg (fun cells => Except.ok (List.toArray cells)) hcells

/-- A node reports its links as strong, and the object that it observes as weak. -/
theorem reports_iff (hs : s.IsNodes) (hclass : o.classId = ⟨0⟩) {slots : Array Slot} {w : Slot}
    {n : UInt64} (hcells : o.cells = #[.refs slots, .ref w, .value n]) {a : Address} {k : Strength} :
    s.Reports o a k ↔ (∃ i < slots.size, a = ⟨0, .item i⟩ ∧ k = .strong) ∨
      a = ⟨1, .here⟩ ∧ k = .weak := by
  have hstreamed := hs.streamed
  obtain ⟨e, rfl, hspec, -, -⟩ := hs.entry
  have hget : (⟨#[e]⟩ : Schema).get? ⟨0⟩ = some e := rfl
  have hlayout := (hs.regular.built ⟨0⟩ e hget).laidOut
  rw [hspec] at hlayout
  obtain ⟨-, hbase, hwidth, -⟩ := layOut_ok hlayout
  have houtline : (⟨#[e]⟩ : Schema).outline o.classId = [.fields 0 nodeSpec.fields] := by
    rw [hclass, outline_root hget (hspec ▸ rfl), hbase, hspec]
    rfl
  have hfits : (⟨#[e]⟩ : Schema).Fits o := by
    refine ⟨⟨e, hclass ▸ hget, ?_⟩, ?_⟩
    · rw [hcells, hwidth, hbase]
      rfl
    · rw [houtline, List.forall_mem_singleton, Part.Fits, hcells]
      exact ⟨⟨slots, rfl⟩, ⟨w, rfl⟩, ⟨n, rfl⟩, trivial⟩
  have hslots : ((⟨#[e]⟩ : Schema).outline o.classId).flatMap (Part.slots o) =
      ((List.range slots.size).map fun i => (⟨0, .item i⟩, .strong)) ++ [(⟨1, .here⟩, .weak)] := by
    rw [houtline, List.flatMap_singleton, Part.slots, hcells]
    rfl
  constructor
  · intro hrep
    have hmem := hrep.mem_slots hs.regular hfits
    rw [hslots] at hmem
    simpa [eq_comm, and_assoc] using hmem
  · intro hcases
    rcases hs.regular.walk_cases hfits with ⟨walk, hwalk, -, hfound⟩ |
      ⟨f, hfault, -⟩
    · have hmem : (a, k) ∈ walk.visits.map Visit.found := by
        rw [hfound, hslots]
        simpa [eq_comm, and_assoc] using hcases
      obtain ⟨v, hv, heq⟩ := List.mem_map.mp hmem
      cases heq
      exact reports_of_visit hwalk hv
    · obtain ⟨walk, hwalk⟩ := hstreamed.walks hs.regular hfits
      rw [hwalk] at hfault
      cases hfault

end Schema.IsNodes

namespace Cluster

variable {s : Schema} {t : Table} {c : Cluster}

theorem frame_adopt (c : Cluster) (t : Table) : t.Frame (c.adopt t) := by
  have hmembers : ∀ (members : List Handle) (t : Table), t.Frame
      (members.foldl (fun t h => t.modify h (·.setOwner (some c.root))) t) := by
    intro members
    induction members with
    | nil => exact .refl
    | cons h rest ih => exact fun t => (Table.Frame.modify t h _).trans (ih _)
  exact (hmembers c.members t).trans (.modify ..)

/-- Forming a cluster of objects that may join one. -/
theorem form_ok (hs : s.Streamed) (hregular : s.Regular)
    (hfits : ∀ h o, t.get? h = some o → s.Fits o) {root : Handle} {members : List Handle}
    (hjoin : ∀ h ∈ root :: members, t.MayJoin h) :
    ∃ made, form s t root members = .ok made ∧ made.Gathers s t root members := by
  have hwalk : ∀ h ∈ root :: members, t.Walkable s h :=
    fun h _ o ho => hs.walks hregular (hfits h o ho)
  rcases form_iff hregular hfits root members with ⟨-, -, hmade⟩ | ⟨-, hnot, -⟩ | ⟨hnot, -⟩
  · exact hmade
  · exact absurd hwalk hnot
  · exact absurd hjoin hnot

/-- A cluster that no reference leaves has nothing to note. -/
theorem Founded.nothing_noted (hf : c.Founded s t) (ht : t.Tidy)
    (hclosed : ∀ h ∈ c.objects, ∀ g, Edge s t h .strong g → g ∈ c.objects) :
    c.referenced = [] ∧ c.mutables = [] := by
  have hinside : ∀ h ∈ c.objects, ∀ g, Edge s t h .strong g →
      (⟨c.root, c.members, [], []⟩ : Cluster).encloses g = true :=
    fun h hh g hedge => encloses_iff.mpr (hclosed h hh g hedge)
  constructor
  · refine List.eq_nil_iff_forall_not_mem.mpr fun r hr => ?_
    rcases (hf.noted.mem_referenced r).mp hr with hnil | ⟨h, hh, g, hedge, hout⟩
    · cases hnil
    · have hnot := ((Table.outside?_eq_cluster_iff ht).mp hout).2.2.1
      rw [hinside h hh g hedge] at hnot
      cases hnot
  · refine List.eq_nil_iff_forall_not_mem.mpr fun m hm => ?_
    rcases (hf.noted.mem_mutables m).mp hm with hnil | ⟨h, hh, g, hedge, hout⟩
    · cases hnil
    · have hnot := ((Table.outside?_eq_standalone_iff ht).mp hout).2.2.2.1
      rw [hinside h hh g hedge] at hnot
      cases hnot

end Cluster

/-- A heap of nodes in outline: the objects by number, who links to whom, and who lies in one cluster with
whom. -/
structure Sketch where
  /-- The objects have the numbers from one to this. -/
  count : Nat
  links : Nat → Nat → Prop
  /-- The objects of each cluster. -/
  groups : List (List Nat)
  roots : Nat → Prop

namespace Sketch

def bare (n : Nat) : Sketch := ⟨n, fun _ _ => False, [], fun _ => False⟩

def addNode (k : Sketch) : Sketch := { k with count := k.count + 1 }

def addLink (k : Sketch) (a b : Nat) : Sketch :=
  { k with links := fun x y => k.links x y ∨ x = a ∧ y = b }

def addGroup (k : Sketch) (group : List Nat) : Sketch := { k with groups := group :: k.groups }

def addRoot (k : Sketch) (a : Nat) : Sketch := { k with roots := fun x => k.roots x ∨ x = a }

def Apart (k : Sketch) (a : Nat) : Prop := ∀ group ∈ k.groups, a ∉ group

structure Bounded (k : Sketch) : Prop where
  links : ∀ a b, k.links a b → a ≤ k.count
  groups : ∀ group ∈ k.groups, ∀ a ∈ group, a ≤ k.count
  roots : ∀ a, k.roots a → a ≤ k.count

variable {k : Sketch} {a : Nat}

theorem Bounded.bare (n : Nat) : (Sketch.bare n).Bounded :=
  ⟨fun _ _ h => h.elim, fun _ h => absurd h List.not_mem_nil, fun _ h => h.elim⟩

theorem Bounded.addNode (hk : k.Bounded) : k.addNode.Bounded :=
  ⟨fun a b h => Nat.le_succ_of_le (hk.links a b h),
    fun group h a ha => Nat.le_succ_of_le (hk.groups group h a ha),
    fun a h => Nat.le_succ_of_le (hk.roots a h)⟩

theorem Bounded.addLink (hk : k.Bounded) (ha : a ≤ k.count) (b : Nat) : (k.addLink a b).Bounded := by
  refine ⟨?_, hk.groups, hk.roots⟩
  rintro x y (h | ⟨rfl, -⟩)
  · exact hk.links x y h
  · exact ha

theorem Bounded.addGroup (hk : k.Bounded) {group : List Nat} (hg : ∀ a ∈ group, a ≤ k.count) :
    (k.addGroup group).Bounded := by
  refine ⟨hk.links, ?_, hk.roots⟩
  rintro other hother x hx
  rcases List.mem_cons.mp hother with rfl | hold
  · exact hg x hx
  · exact hk.groups other hold x hx

theorem Bounded.addRoot (hk : k.Bounded) (ha : a ≤ k.count) : (k.addRoot a).Bounded := by
  refine ⟨hk.links, hk.groups, ?_⟩
  rintro x (h | rfl)
  · exact hk.roots x h
  · exact ha

end Sketch

structure Sketch.Node (k : Sketch) (o : Object) : Prop where
  classId : o.classId = ⟨0⟩
  cells : ∃ slots w, o.cells = #[.refs slots, .ref w, .value 0] ∧
    ∀ g, some g ∈ slots ↔ k.links o.handle.index g.index
  flags : o.flags = .empty ∨ o.flags = .single .rootSet ∨ o.flags = .single .clusterRoot
  root : o.has .rootSet = true ↔ k.roots o.handle.index

namespace Collector

theorem object_of_get? {c : Collector} {h : Handle} {o : Object} (ho : c.table.get? h = some o) :
    c.object h = .ok o := by
  simp [object, ho]

theorem perform_of_reply {c d : Collector} {op : Operation} {α : Type} {f : α → Reply} {a : α}
    {call : Outcome α} (hop : c.perform op = Collector.reply f call) (hcall : call = .ok (.ok a, d)) :
    c.perform op = .ok (f a, d) := by
  rw [hop, hcall]
  rfl

/-- A heap as a sketch has it, with nothing to purge and nobody to keep collections off. -/
structure Shows (c : Collector) (settings : Settings) (k : Sketch) : Prop where
  reached : Reached c
  settings : c.settings = settings
  idle : c.purge.required = false
  lock : c.lock = .free
  schema : c.schema.IsNodes
  boundary : c.table.boundary = 1
  free : c.table.free = []
  size : c.table.slots.size = k.count + 1
  bounded : k.Bounded
  nodes : ∀ h, h.index ≤ k.count → ∃ o, c.table.get? h = some o ∧ k.Node o
  clusters : ∀ x ∈ c.clusters.list, x.referenced = [] ∧ x.mutables = [] ∧
    ∃ group ∈ k.groups, ∀ h ∈ x.objects, h.index ∈ group

namespace Shows

variable {c : Collector} {settings : Settings} {k : Sketch} {g h : Handle} {o : Object}

section

variable (hs : c.Shows settings k)
include hs

theorem tidy : c.table.Tidy := hs.reached.sound.settled.orderly.tidy

theorem handle_eq (ho : c.table.get? h = some o) : o.handle = h := hs.tidy.handle_eq ho

theorem index_le (ho : c.table.get? h = some o) : h.index ≤ k.count := by
  have := Table.index_lt_size ho
  rw [hs.size] at this
  omega

theorem node (ho : c.table.get? h = some o) : k.Node o := by
  obtain ⟨p, hp, hnode⟩ := hs.nodes h (hs.index_le ho)
  rw [ho] at hp
  cases hp
  exact hnode

theorem isPermanent (h : Handle) : c.table.isPermanent h = false := by
  have := h.pos
  simp only [Table.isPermanent, hs.boundary, decide_eq_false_iff_not]
  omega

/-- The strong references are the links. -/
theorem edge_iff : Edge c.schema c.table h .strong g ↔ k.links h.index g.index := by
  constructor
  · rintro ⟨o, a, ho, hrep, hslot⟩
    have hnode := hs.node ho
    obtain ⟨slots, w, hcells, hlinks⟩ := hnode.cells
    rcases (hs.schema.reports_iff hnode.classId hcells).mp hrep with ⟨i, hi, rfl, -⟩ | ⟨-, hk⟩
    · rw [Object.slot?, Cell.slotAt?, hcells] at hslot
      have hmem : some g ∈ slots := Array.mem_of_getElem? hslot
      rw [← hs.handle_eq ho]
      exact (hlinks g).mp hmem
    · cases hk
  · intro hlink
    obtain ⟨o, ho, hnode⟩ := hs.nodes h (hs.bounded.links _ _ hlink)
    obtain ⟨slots, w, hcells, hlinks⟩ := hnode.cells
    rw [← hs.handle_eq ho] at hlink
    obtain ⟨i, hi, hget⟩ := Array.mem_iff_getElem.mp ((hlinks g).mpr hlink)
    refine ⟨o, ⟨0, .item i⟩, ho,
      (hs.schema.reports_iff hnode.classId hcells).mpr (.inl ⟨i, hi, rfl, rfl⟩), ?_⟩
    rw [Object.slot?, Cell.slotAt?, hcells]
    exact (Array.getElem?_eq_getElem hi).trans (congrArg some hget)

/-- An object apart belongs to no cluster. -/
theorem no_cluster (ho : c.table.get? h = some o) (ha : k.Apart h.index) :
    o.owner = none ∧ o.has .clusterRoot = false := by
  have henrolled := hs.reached.sound.settled.orderly.enrolled
  have hout : ∀ x ∈ c.clusters.list, h ∉ x.objects := by
    intro x hx hmem
    obtain ⟨-, -, group, hgroup, hin⟩ := hs.clusters x hx
    exact ha group hgroup (hin h hmem)
  constructor
  · cases hown : o.owner with
    | none => rfl
    | some r =>
      obtain ⟨x, hx, -, hmem⟩ := henrolled.listed h o r ho hown
      exact absurd (List.mem_cons_of_mem _ hmem) (hout x hx)
  · cases hroot : o.has .clusterRoot with
    | false => rfl
    | true =>
      obtain ⟨x, hx, rfl⟩ := henrolled.registered h o ho hroot
      exact absurd List.mem_cons_self (hout x hx)

/-- Every object may be referenced. -/
theorem checkTarget_eq (hg : g.index ≤ k.count) : checkTarget c.table (some g) = .ok () := by
  obtain ⟨o, ho, hnode⟩ := hs.nodes g hg
  have hsound : o.flags.intersects .condemned = false := by
    rcases hnode.flags with h | h | h <;> rw [h] <;> decide
  simp [checkTarget, ho, hsound]

/-- A change that leaves the objects in their places. -/
theorem change {t : Table} {cs : Clusters} {k' : Sketch}
    (hr : Reached { c with table := t, clusters := cs }) (hframe : c.table.Frame t)
    (hbound : t.boundary = c.table.boundary) (hcount : k'.count = k.count) (hk : k'.Bounded)
    (hnodes : ∀ h o, c.table.get? h = some o → ∃ o', t.get? h = some o' ∧ k'.Node o')
    (hclusters : ∀ x ∈ cs.list, x.referenced = [] ∧ x.mutables = [] ∧
      ∃ group ∈ k'.groups, ∀ h ∈ x.objects, h.index ∈ group) :
    ({ c with table := t, clusters := cs } : Collector).Shows settings k' where
  reached := hr
  settings := hs.settings
  idle := hs.idle
  lock := hs.lock
  schema := hs.schema
  boundary := hbound.trans hs.boundary
  free := hframe.free.trans hs.free
  size := by rw [hframe.size, hs.size, hcount]
  bounded := hk
  nodes := by
    intro h hh
    obtain ⟨o, ho, -⟩ := hs.nodes h (hcount ▸ hh)
    exact hnodes h o ho
  clusters := hclusters

end

/-- Making a node. -/
theorem createObject (hs : c.Shows settings k) (hroom : k.count + 1 < 4294967296) (name : String) :
    ∃ h d, c.createObject ⟨0⟩ name = .ok (.ok h, d) ∧ h.index = k.count + 1 ∧
      d.Shows settings k.addNode := by
  let h : Handle := ⟨k.count + 1, Nat.succ_pos _, hroom⟩
  let o : Object := .fresh h ⟨0⟩ name #[.refs #[], .ref none, .value 0]
  let t : Table :=
    { c.table with slots := c.table.slots.push (some o), free := [], live := c.table.live + 1 }
  have hallocate : c.table.allocate ⟨0⟩ name #[.refs #[], .ref none, .value 0] = (some h, t) := by
    have hindex : Handle.ofIndex? c.table.slots.size = some h := by
      rw [hs.size]
      exact Handle.ofIndex?_index h
    unfold Table.allocate
    rw [hs.free]
    dsimp only
    rw [hindex]
  have hcreate : c.createObject ⟨0⟩ name = .ok (.ok h, { c with table := t }) := by
    unfold Collector.createObject
    rw [hs.schema.instantiate]
    dsimp only
    rw [hallocate]
    rfl
  have hcall : c.perform (.createObject ⟨0⟩ name) = .ok (.created h, _) :=
    perform_of_reply rfl hcreate
  have hallowed : (Operation.createObject ⟨0⟩ name).Allowed c := trivial
  have hget : ∀ g, t.get? g = if g = h then some o else c.table.get? g := by
    intro g
    have hsize := hs.size
    have hnew : g = h ↔ g.index = c.table.slots.size := by
      rw [hsize]
      exact ⟨congrArg Handle.index, fun hg => Handle.ext_index hg⟩
    simp only [Table.get?, Table.slot?, t, Array.getElem?_push, ← hnew]
    split <;> rfl
  refine ⟨h, _, hcreate, rfl, ?_⟩
  refine ⟨hs.reached.step hallowed hcall, hs.settings, hs.idle, hs.lock, hs.schema, hs.boundary, rfl, ?_,
    hs.bounded.addNode, fun g hg => ?_, hs.clusters⟩
  · simp [t, hs.size, Sketch.addNode]
  · by_cases he : g = h
    · refine ⟨o, by rw [hget, if_pos he], rfl, ⟨#[], none, rfl, fun x => ?_⟩, .inl rfl, ?_⟩
      · refine ⟨fun hx => absurd hx (Array.not_mem_empty _), fun hx => ?_⟩
        have := hs.bounded.links _ _ hx
        exact absurd this (Nat.not_succ_le_self _)
      · refine ⟨fun hx => absurd hx (by simp [o, Object.fresh, Object.has]), fun hx => ?_⟩
        have := hs.bounded.roots _ hx
        exact absurd this (Nat.not_succ_le_self _)
    · have hle : g.index ≤ k.count := by
        have hne : g.index ≠ k.count + 1 := fun hi => he (Handle.ext_index hi)
        have : g.index ≤ k.count + 1 := hg
        omega
      obtain ⟨p, hp, hnode⟩ := hs.nodes g hle
      exact ⟨p, by rw [hget, if_neg he, hp], hnode.classId, hnode.cells, hnode.flags, hnode.root⟩

section

variable (hs : c.Shows settings k)
include hs

/-- Writing a reference into an object apart. -/
theorem writeReference_eq (ho : c.table.get? h = some o) (ha : k.Apart h.index)
    (hg : g.index ≤ k.count) {offset : Nat} {expected : String}
    (hkind : o.cells[offset]?.any (·.kindName == expected) = true) :
    c.writeReference h offset (some g) expected = .ok (.ok (),
      { c with table := c.table.modify h (·.modifyCell offset (·.hold (some g))) }) := by
  obtain ⟨hown, hroot⟩ := hs.no_cluster ho ha
  have hrecord : c.clusters.record c.schema
      (c.table.modify h (·.modifyCell offset (·.hold (some g)))) h = .ok c.clusters := by
    have hroot' : (o.modifyCell offset (·.hold (some g))).has .clusterRoot = false := hroot
    have hown' : (o.modifyCell offset (·.hold (some g))).owner = none := hown
    unfold Clusters.record
    rw [Table.get?_modify_self, ho]
    simp only [Option.map_some, hroot', hown']
    rfl
  unfold writeReference
  rw [hs.checkTarget_eq hg, object_of_get? ho]
  dsimp only
  rw [if_pos hkind]
  unfold record
  dsimp only [Option.isSome_some]
  rw [hrecord]
  rfl

/-- What a write to an object apart leaves. -/
theorem write (ho : c.table.get? h = some o) {k' : Sketch} {offset : Nat}
    (hr : Reached { c with
      table := c.table.modify h (·.modifyCell offset (·.hold (some g))) })
    (hcount : k'.count = k.count) (hgroups : k'.groups = k.groups) (hk : k'.Bounded)
    (hself : k'.Node (o.modifyCell offset (·.hold (some g))))
    (hothers : ∀ p : Object, k.Node p → p.handle ≠ h → k'.Node p) :
    ({ c with table := c.table.modify h (·.modifyCell offset (·.hold (some g))) } : Collector).Shows
      settings k' := by
  refine hs.change hr (.modify ..) rfl hcount hk (fun x p hp => ?_) (hgroups ▸ hs.clusters)
  by_cases he : x = h
  · subst he
    rw [ho] at hp
    cases hp
    exact ⟨_, by rw [Table.get?_modify_self, ho]; rfl, hself⟩
  · refine ⟨p, by rw [Table.get?_modify_of_ne _ he, hp], hothers p (hs.node hp) ?_⟩
    rw [hs.handle_eq hp]
    exact he

/-- Linking an object apart to another one. -/
theorem pushReference (hh : h.index ≤ k.count) (ha : k.Apart h.index) (hg : g.index ≤ k.count) :
    ∃ d, c.pushReference h Graph.links (some g) = .ok (.ok (), d) ∧
      d.Shows settings (k.addLink h.index g.index) := by
  obtain ⟨o, ho, hnode⟩ := hs.nodes h hh
  obtain ⟨slots, w, hcells, hlinks⟩ := hnode.cells
  have hwrite : c.pushReference h Graph.links (some g) = _ :=
    hs.writeReference_eq ho ha hg (by rw [hcells]; rfl)
  have hcall : c.perform (.pushReference h Graph.links (some g)) = .ok (.done, _) :=
    perform_of_reply (f := fun _ => .done) rfl hwrite
  have hallowed : (Operation.pushReference h Graph.links (some g)).Allowed c := trivial
  refine ⟨_, hwrite, hs.write ho (hs.reached.step hallowed hcall) rfl rfl (hs.bounded.addLink hh _)
    ?_ fun p hp hne => ?_⟩
  · refine ⟨hnode.classId, ⟨slots.push (some g), w, ?_, fun x => ?_⟩, hnode.flags, hnode.root⟩
    · rw [Object.modifyCell, hcells]
      rfl
    · rw [Array.mem_push, hlinks x, Option.some.injEq]
      change _ ↔ k.links o.handle.index x.index ∨ o.handle.index = h.index ∧ x.index = g.index
      rw [hs.handle_eq ho]
      simp only [true_and]
      exact or_congr_right ⟨congrArg Handle.index, fun hx => Handle.ext_index hx⟩
  · obtain ⟨slots', w', hcells', hlinks'⟩ := hp.cells
    refine ⟨hp.classId, ⟨slots', w', hcells', fun x => ?_⟩, hp.flags, hp.root⟩
    rw [hlinks' x]
    exact ⟨.inl, fun hx => hx.resolve_right fun hxh => hne (Handle.ext_index hxh.1)⟩

/-- Letting an object apart observe another one. -/
theorem setReference (hh : h.index ≤ k.count) (ha : k.Apart h.index) (hg : g.index ≤ k.count) :
    ∃ d, c.setReference h Graph.observer (some g) = .ok (.ok (), d) ∧
      d.Shows settings k := by
  obtain ⟨o, ho, hnode⟩ := hs.nodes h hh
  obtain ⟨slots, w, hcells, hlinks⟩ := hnode.cells
  have hwrite : c.setReference h Graph.observer (some g) = _ :=
    hs.writeReference_eq ho ha hg (by rw [hcells]; rfl)
  have hcall : c.perform (.setReference h Graph.observer (some g)) = .ok (.done, _) :=
    perform_of_reply (f := fun _ => .done) rfl hwrite
  have hallowed : (Operation.setReference h Graph.observer (some g)).Allowed c := trivial
  refine ⟨_, hwrite, hs.write ho (hs.reached.step hallowed hcall) rfl rfl hs.bounded ?_
    fun p hp _ => hp⟩
  refine ⟨hnode.classId, ⟨slots, some g, ?_, hlinks⟩, hnode.flags, hnode.root⟩
  rw [Object.modifyCell, hcells]
  rfl

/-- Making an object apart a root. -/
theorem addRoot (hh : h.index ≤ k.count) (ha : k.Apart h.index) :
    (c.addRoot h).1 = .ok () ∧ 
      (c.addRoot h).2.Shows settings (k.addRoot h.index) := by
  obtain ⟨o, ho, hnode⟩ := hs.nodes h hh
  have halive : o.has .pendingKill = false := by
    rcases hnode.flags with hf | hf | hf <;> rw [Object.has, hf] <;> rfl
  have hroot : c.addRoot h = (.ok (), { c with table := c.table.setFlag h .rootSet }) := by
    unfold Collector.addRoot
    rw [object_of_get? ho]
    dsimp only
    rw [halive]
    rfl
  have hcall : c.perform (.addRoot h) = .ok (.done, { c with table := c.table.setFlag h .rootSet }) := by
    change replied (c.addRoot h) = _
    rw [hroot]
    rfl
  have hallowed : (Operation.addRoot h).Allowed c := trivial
  rw [hroot]
  refine ⟨rfl, hs.change (hs.reached.step hallowed hcall) (.modify ..) rfl rfl
    (hs.bounded.addRoot hh) (fun x p hp => ?_) hs.clusters⟩
  by_cases he : x = h
  · subst he
    rw [ho] at hp
    cases hp
    refine ⟨o.set .rootSet, by rw [Table.get?_setFlag ho, if_pos rfl], hnode.classId, hnode.cells,
      ?_, ?_⟩
    · have hno := (hs.no_cluster ho ha).2
      rcases hnode.flags with hf | hf | hf
      · exact .inr (.inl (by rw [Object.set, hf]; rfl))
      · exact .inr (.inl (by rw [Object.set, hf]; rfl))
      · rw [Object.has, hf] at hno
        cases hno
    · rw [Object.has_set]
      refine iff_of_true (by simp) (.inr ?_)
      exact congrArg Handle.index (hs.handle_eq ho : o.handle = x)
  · refine ⟨p, by rw [Table.get?_setFlag ho, if_neg he, hp], ?_⟩
    have hp' := hs.node hp
    refine ⟨hp'.classId, hp'.cells, hp'.flags, hp'.root.trans ⟨.inl, fun hx => ?_⟩⟩
    refine hx.resolve_right fun hxh => he ?_
    rw [← hs.handle_eq hp]
    exact Handle.ext_index hxh

/-- An object apart may join a cluster. -/
theorem mayJoin (hh : h.index ≤ k.count) (ha : k.Apart h.index) : c.table.MayJoin h := by
  obtain ⟨o, ho, hnode⟩ := hs.nodes h hh
  obtain ⟨hown, hroot⟩ := hs.no_cluster ho ha
  have hsound : o.isUnreachable = false ∧ o.has .pendingKill = false := by
    unfold Object.isUnreachable Object.has
    rcases hnode.flags with hf | hf | hf <;> rw [hf] <;> decide
  exact ⟨o, ho, hs.isPermanent h, hown, hroot, hsound⟩

/-- Forming a cluster that no link leaves. -/
theorem formCluster (root : Handle) (members : List Handle)
    (hle : ∀ h ∈ root :: members, h.index ≤ k.count)
    (ha : ∀ h ∈ root :: members, k.Apart h.index) (hroot : ¬ k.roots root.index)
    (hlinks : ∀ h ∈ root :: members, ∀ g, k.links h.index g.index → g ∈ root :: members) :
    ∃ d, c.formCluster root members = .ok (.ok (), d) ∧
      d.Shows settings (k.addGroup ((root :: members).map (·.index))) := by
  have horderly := hs.reached.sound.settled.orderly
  obtain ⟨made, hform, a⟩ := Cluster.form_ok hs.schema.streamed horderly.regular horderly.fits
    fun h hh => hs.mayJoin (hle h hh) (ha h hh)
  obtain ⟨hreferenced, hmutables⟩ := a.nothing_noted horderly.tidy fun h hh g hedge =>
    a.mem_objects.mpr (hlinks h (a.mem_objects.mp hh) g (hs.edge_iff.mp hedge))
  have hmake := formCluster_made hform
  have hcall : c.perform (.formCluster root members) = .ok (.done, _) :=
    perform_of_reply (f := fun _ => .done) rfl hmake
  have hallowed : (Operation.formCluster root members).Allowed c := trivial
  refine ⟨_, hmake, hs.change (hs.reached.step hallowed hcall) (made.frame_adopt c.table)
    a.evolves.boundary rfl (hs.bounded.addGroup ?_) (fun h o ho => ?_) fun x hx => ?_⟩
  · intro n hmem
    obtain ⟨h, hh, rfl⟩ := List.mem_map.mp hmem
    exact hle h hh
  · obtain ⟨o', ho', rfl⟩ := a.evolves.kept h o ho
    have hnode := hs.node ho
    refine ⟨_, ho', ?_⟩
    unfold Cluster.adopted
    split
    · rename_i he
      rw [a.root_eq] at he
      subst he
      refine ⟨hnode.classId, hnode.cells, ?_, ?_⟩
      · have hno := (hs.no_cluster ho (ha h List.mem_cons_self)).2
        rcases hnode.flags with hf | hf | hf
        · exact .inr (.inr (by rw [Object.set, hf]; rfl))
        · refine absurd (hnode.root.mp ?_) (hs.handle_eq ho ▸ hroot)
          rw [Object.has, hf]
          rfl
        · rw [Object.has, hf] at hno
          cases hno
      · have hsame : (o.set .clusterRoot).has .rootSet = o.has .rootSet := by simp
        rw [hsame]
        exact hnode.root
    · split
      · exact ⟨hnode.classId, hnode.cells, hnode.flags, hnode.root⟩
      · exact ⟨hnode.classId, hnode.cells, hnode.flags, hnode.root⟩
  · have hmem : x = made ∨ x ∈ c.clusters.list := by
      unfold Clusters.insert at hx
      split at hx
      · exact .inr hx
      · exact List.mem_cons.mp hx
    rcases hmem with rfl | hold
    · exact ⟨hreferenced, hmutables, _, List.mem_cons_self, fun h hh =>
        List.mem_map_of_mem (a.mem_objects.mp hh)⟩
    · obtain ⟨hr, hm, group, hgroup, hin⟩ := hs.clusters x hold
      exact ⟨hr, hm, group, List.mem_cons_of_mem _ hgroup, hin⟩

end

end Shows

end Collector

end TracingHeap

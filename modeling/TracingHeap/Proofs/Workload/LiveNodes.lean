import Mathlib.Data.Set.Card
import Mathlib.Order.Interval.Finset.Nat
import TracingHeap.Proofs.Workload.Population

namespace TracingHeap

open Collector (Shows)
open TracingHeap.Graph

/-- The graph of a specification, drawn apart from any heap. -/
def GraphSpec.sketch (spec : GraphSpec) : Sketch :=
  (((Sketch.bare spec.objects).addRows 0 spec.rows).addChains spec.clusterSize spec.holders).addRoots
    (List.range' 1 (min spec.roots spec.objects))

namespace Sketch

variable {k : Sketch}

/-- The chains are numbered from zero; each has its nodes one after the other. -/
def chainStart (k : Sketch) (n j : Nat) : Nat := k.count + j * (n + 1) + 1

theorem chainStart_addChain (k : Sketch) (n j : Nat) (holder : Option Nat) :
    (k.addChain n holder).chainStart n j = k.chainStart n (j + 1) := by
  unfold chainStart addChain
  dsimp only
  rw [Nat.add_mul]
  omega

theorem count_addChains (n : Nat) (holders : List (Option Nat)) : ∀ k : Sketch,
    (k.addChains n holders).count = k.count + holders.length * (n + 1) := by
  induction holders with
  | nil => simp [addChains]
  | cons holder rest ih =>
    intro k
    have := ih (k.addChain n holder)
    have hcount : (k.addChain n holder).count = k.count + n + 1 := rfl
    rw [List.length_cons, Nat.add_mul]
    change ((k.addChain n holder).addChains n rest).count = _
    omega

theorem roots_addChains (n : Nat) (holders : List (Option Nat)) : ∀ k : Sketch,
    (k.addChains n holders).roots = k.roots := by
  induction holders with
  | nil => exact fun _ => rfl
  | cons holder rest ih => exact fun k => ih (k.addChain n holder)

/-- Each chain is a cluster. -/
theorem groups_addChains (n : Nat) (holders : List (Option Nat)) {group : List Nat} : ∀ k : Sketch,
    group ∈ (k.addChains n holders).groups ↔ group ∈ k.groups ∨
      ∃ j < holders.length, group = List.range' (k.chainStart n j) (n + 1) := by
  induction holders with
  | nil => simp [addChains]
  | cons holder rest ih =>
    intro k
    have hfirst : group ∈ (k.addChain n holder).groups ↔
        group = List.range' (k.chainStart n 0) (n + 1) ∨ group ∈ k.groups := by
      rw [chainStart, Nat.zero_mul, Nat.add_zero]
      exact List.mem_cons
    change group ∈ ((k.addChain n holder).addChains n rest).groups ↔ _
    rw [ih, hfirst]
    simp only [chainStart_addChain, List.length_cons]
    constructor
    · rintro ((rfl | hold) | ⟨j, hj, rfl⟩)
      · exact .inr ⟨0, by omega, rfl⟩
      · exact .inl hold
      · exact .inr ⟨j + 1, by omega, rfl⟩
    · rintro (hold | ⟨j, hj, rfl⟩)
      · exact .inl (.inr hold)
      · cases j with
        | zero => exact .inl (.inl rfl)
        | succ j => exact .inr ⟨j, by omega, rfl⟩

/-- The links of the chains: each node of a chain to the next one, and the holder to the first. -/
def ChainLink (k : Sketch) (n : Nat) (holders : List (Option Nat)) (x y : Nat) : Prop :=
  ∃ j holder, holders[j]? = some holder ∧
    ((∃ i < n, x = k.chainStart n j + i ∧ y = k.chainStart n j + i + 1) ∨
      ∃ i, holder = some i ∧ x = i + 1 ∧ y = k.chainStart n j)

theorem chainLink_cons {n : Nat} {holder : Option Nat} {rest : List (Option Nat)} {x y : Nat} :
    k.ChainLink n (holder :: rest) x y ↔
      ((∃ i < n, x = k.count + 1 + i ∧ y = k.count + 1 + i + 1) ∨
        ∃ i, holder = some i ∧ x = i + 1 ∧ y = k.count + 1) ∨
      (k.addChain n holder).ChainLink n rest x y := by
  have hstart : k.chainStart n 0 = k.count + 1 := by simp [chainStart]
  unfold ChainLink
  simp only [chainStart_addChain]
  constructor
  · rintro ⟨j, holder', hj, hlink⟩
    cases j with
    | zero =>
      cases hj
      rw [hstart] at hlink
      exact .inl hlink
    | succ j => exact .inr ⟨j, holder', hj, hlink⟩
  · rintro (hlink | ⟨j, holder', hj, hlink⟩)
    · refine ⟨0, holder, rfl, ?_⟩
      rw [hstart]
      exact hlink
    · exact ⟨j + 1, holder', hj, hlink⟩

theorem links_addChains (n : Nat) (holders : List (Option Nat)) {x y : Nat} : ∀ k : Sketch,
    (k.addChains n holders).links x y ↔ k.links x y ∨ k.ChainLink n holders x y := by
  induction holders with
  | nil => simp [addChains, ChainLink]
  | cons holder rest ih =>
    intro k
    have hfirst : (k.addChain n holder).links x y ↔ k.links x y ∨
        ((∃ i < n, x = k.count + 1 + i ∧ y = k.count + 1 + i + 1) ∨
          ∃ i, holder = some i ∧ x = i + 1 ∧ y = k.count + 1) := by
      simp only [addChain, addPath, or_assoc]
    change ((k.addChain n holder).addChains n rest).links x y ↔ _
    rw [ih, hfirst, chainLink_cons, or_assoc]

end Sketch

section

variable {settings : Settings} {spec : GraphSpec} {c : Collector}

theorem populate_shows (hs : c.Shows settings (.bare 0))
    (hroom : spec.objects + spec.clusters * (spec.clusterSize + 1) < 4294967296) :
    ∃ d, c.populate ⟨0⟩ spec = .ok (min spec.roots spec.objects, d) ∧
      d.Shows settings spec.sketch := by
  obtain ⟨nodes, c₁, hmade, hsize, hn, h₁⟩ := addNodes_shows (l := List.range spec.objects)
    (show Numbered #[] from fun i h hi => by simp at hi) hs (by simp; omega)
  have hsize : nodes.size = spec.objects := by simpa using hsize
  have hlen : nodes.toList.length = spec.objects := hsize
  rw [hsize] at h₁
  obtain ⟨c₂, hlinked, h₂⟩ := linkNodes_shows (l := nodes.toList) hn hsize 0 ⟨spec.seed⟩
    h₁ (Nat.le_refl _) rfl (fun i h hi => by rw [hn i h (by simpa using hi)]; omega)
    (by omega)
  rw [hlen] at hlinked h₂
  obtain ⟨c₃, hclustered, h₃⟩ := addClusters_shows (l := List.range spec.clusters)
    (r := (spec.drawNodes ⟨spec.seed⟩ spec.objects).2) hn hsize h₂ (Nat.le_refl _)
    (by rw [List.length_range]; exact hroom) (fun group hgroup => by cases hgroup)
  rw [List.length_range] at hclustered h₃
  have hroots : (nodes.toList.take spec.roots).map (·.index) =
      List.range' 1 (min spec.roots spec.objects) := by
    refine List.ext_getElem (by simp [hlen]) fun i h1 h2 => ?_
    have hi : i < nodes.toList.length := by simp at h1; omega
    simp only [List.getElem_map, List.getElem_take, List.getElem_range', Nat.one_mul]
    rw [hn i nodes.toList[i] (by simp), Nat.add_comm]
  obtain ⟨d, hrooted, hd⟩ := addRoots_shows (l := nodes.toList.take spec.roots) h₃ fun h hh => by
    have hmem : h.index ∈ List.range' 1 (min spec.roots spec.objects) :=
      hroots ▸ List.mem_map_of_mem hh
    rw [List.mem_range'_1] at hmem
    have hcount := ((Sketch.bare spec.objects).addRows 0 (spec.drawNodes ⟨spec.seed⟩
      spec.objects).1).count_addChains spec.clusterSize
      (spec.drawHolders (spec.drawNodes ⟨spec.seed⟩ spec.objects).2 spec.clusters).1
    have hbase : ((Sketch.bare spec.objects).addRows 0 (spec.drawNodes ⟨spec.seed⟩
      spec.objects).1).count = spec.objects := rfl
    refine ⟨by omega, fun group hgroup hin => ?_⟩
    rcases (Sketch.groups_addChains _ _ _).mp hgroup with hnone | ⟨j, -, rfl⟩
    · cases hnone
    · have := (List.mem_range'_1.mp hin).1
      rw [Sketch.chainStart, hbase] at this
      omega
  rw [hroots] at hd
  refine ⟨d, ?_, hd⟩
  unfold Collector.populate Graph.addNodes
  rw [hmade, ok_bind]
  split
  rename_i heq
  cases heq
  rw [hlinked, ok_bind]
  split
  rename_i heq
  cases heq
  rw [hclustered, ok_bind]
  split
  rename_i heq
  cases heq
  dsimp only
  rw [hrooted, ok_bind, List.length_take, hlen]
  rfl

/-- A new collector in which the class of nodes is registered. -/
theorem registerNodes_shows (settings : Settings) (processors : Nat) : ∃ d,
    (Collector.start settings processors).registerClass nodeSpec = .ok (.ok ⟨0⟩, d) ∧
      d.Shows settings (.bare 0) := by
  obtain ⟨s, hs, hnodes⟩ := register_nodeSpec
  have hregister : (Collector.start settings processors).registerClass nodeSpec =
      .ok (.ok ⟨0⟩, { Collector.start settings processors with schema := s }) := by
    unfold Collector.registerClass
    rw [show (Collector.start settings processors).schema = .empty from rfl, hs]
    rfl
  have hcall : (Collector.start settings processors).perform (.registerClass nodeSpec) =
      .ok (.registered ⟨0⟩, _) := Collector.perform_of_reply (f := .registered) rfl hregister
  have hallowed : (Operation.registerClass nodeSpec).Allowed (.start settings processors) :=
    nodeSpec_honest
  refine ⟨_, hregister, (Reached.start settings processors).step hallowed hcall, rfl, rfl, rfl,
    hnodes, rfl, rfl, rfl, .bare 0, fun h hh => ?_, fun x hx => by cases hx⟩
  exact absurd h.pos (Nat.not_lt.mpr hh)

theorem withGraph_shows (settings : Settings) (processors : Nat)
    (hroom : spec.objects + spec.clusters * (spec.clusterSize + 1) < 4294967296) :
    ∃ d, Collector.withGraph settings processors spec =
        .ok (min spec.roots spec.objects, ⟨0⟩, d) ∧ d.Shows settings spec.sketch := by
  obtain ⟨c, hregister, hc⟩ := registerNodes_shows settings processors
  obtain ⟨d, hbuilt, hd⟩ := populate_shows hc hroom
  refine ⟨d, ?_, hd⟩
  unfold Collector.withGraph
  rw [demand_ok hregister, ok_bind]
  split
  rename_i heq
  cases heq
  rw [hbuilt, ok_bind]
  rfl

end

theorem Random.below_lt (r : Random) {n : Nat} (hn : n ≠ 0) : (r.below n).1 < n :=
  Nat.mod_lt r.next.1.toNat (Nat.pos_of_ne_zero hn)

namespace GraphSpec

variable {spec : GraphSpec}

theorem lt_of_mem_drawTargets {n : Nat} (hne : spec.objects ≠ 0) : ∀ {r : Random} {b : Nat},
    b ∈ (spec.drawTargets r n).1 → b < spec.objects := by
  induction n with
  | zero => exact fun hb => by cases hb
  | succ n ih =>
    intro r b hb
    rw [drawTargets_succ] at hb
    rcases List.mem_cons.mp hb with he | hb
    · rw [he]
      exact Random.below_lt r hne
    · exact ih hb

theorem lt_of_mem_drawNodes {n : Nat} (hne : spec.objects ≠ 0) : ∀ {r : Random} {row : List Nat}
    {b : Nat}, row ∈ (spec.drawNodes r n).1 → b ∈ row → b < spec.objects := by
  induction n with
  | zero => exact fun hrow => by cases hrow
  | succ n ih =>
    intro r row b hrow hb
    rw [drawNodes_succ] at hrow
    rcases List.mem_cons.mp hrow with he | hrow
    · rw [he, drawNode] at hb
      exact lt_of_mem_drawTargets hne hb
    · exact ih hrow hb

theorem lt_of_mem_drawHolders {n : Nat} : ∀ {r : Random} {a : Nat},
    some a ∈ (spec.drawHolders r n).1 → a < spec.objects := by
  induction n with
  | zero => exact fun ha => by cases ha
  | succ n ih =>
    intro r a ha
    rw [drawHolders_succ] at ha
    rcases List.mem_cons.mp ha with hfirst | ha
    · by_cases hz : spec.objects = 0
      · rw [drawHolder_none hz] at hfirst
        cases hfirst
      · rcases hdrawn : r.below 2 with ⟨roll, r'⟩
        by_cases hroll : roll = 0
        · rw [drawHolder_hit hz hdrawn hroll] at hfirst
          rw [Option.some.inj hfirst]
          exact Random.below_lt r' hz
        · rw [drawHolder_miss hz hdrawn hroll] at hfirst
          cases hfirst
    · exact ih ha

variable (spec)

def LinksTo (a b : Nat) : Prop := ∃ row, spec.rows[a]? = some row ∧ b ∈ row

/-- The links lead to a node of the random part from one of the first, which are the roots. -/
def Found (a : Nat) : Prop :=
  ∃ r < min spec.roots spec.objects, Relation.ReflTransGen spec.LinksTo r a

def Fed (j : Nat) : Prop := ∃ a, spec.holders[j]? = some (some a) ∧ spec.Found a

variable {spec}

theorem LinksTo.lt {a b : Nat} (hl : spec.LinksTo a b) : a < spec.objects ∧ b < spec.objects := by
  obtain ⟨row, hrow, hb⟩ := hl
  have ha : a < spec.objects := by
    have := (List.getElem?_eq_some_iff.mp hrow).1
    rwa [rows, length_drawNodes] at this
  exact ⟨ha, lt_of_mem_drawNodes (by omega) (List.mem_of_getElem? hrow) hb⟩

theorem Found.lt {a : Nat} (hf : spec.Found a) : a < spec.objects := by
  obtain ⟨r, hr, hpath⟩ := hf
  cases hpath with
  | refl => omega
  | tail _ hlast => exact hlast.lt.2

theorem Found.step {a b : Nat} (hf : spec.Found a) (hl : spec.LinksTo a b) : spec.Found b := by
  obtain ⟨r, hr, hpath⟩ := hf
  exact ⟨r, hr, hpath.tail hl⟩

theorem Fed.lt {j : Nat} (hf : spec.Fed j) : j < spec.clusters := by
  obtain ⟨a, hj, -⟩ := hf
  have := (List.getElem?_eq_some_iff.mp hj).1
  rwa [holders, length_drawHolders] at this

def chain (spec : GraphSpec) (j : Nat) : Nat := spec.objects + j * (spec.clusterSize + 1) + 1

theorem chain_inj {j j' i i' : Nat} (hi : i ≤ spec.clusterSize) (hi' : i' ≤ spec.clusterSize)
    (h : spec.chain j + i = spec.chain j' + i') : j = j' ∧ i = i' := by
  unfold chain at h
  rcases Nat.lt_trichotomy j j' with hlt | rfl | hlt
  · have := Nat.mul_le_mul_right (spec.clusterSize + 1) hlt
    rw [Nat.succ_mul] at this
    omega
  · exact ⟨rfl, by omega⟩
  · have := Nat.mul_le_mul_right (spec.clusterSize + 1) hlt
    rw [Nat.succ_mul] at this
    omega

/-- What links to what in the graph: nodes to the targets drawn for them, the nodes of a chain to the
next, and holders to the first nodes of chains. -/
theorem links_sketch {x y : Nat} : spec.sketch.links x y ↔
    (∃ a b, spec.LinksTo a b ∧ x = a + 1 ∧ y = b + 1) ∨
    (∃ j < spec.clusters, ∃ i < spec.clusterSize, x = spec.chain j + i ∧ y = spec.chain j + i + 1) ∨
    ∃ j a, spec.holders[j]? = some (some a) ∧ x = a + 1 ∧ y = spec.chain j := by
  have hrows : ((Sketch.bare spec.objects).addRows 0 spec.rows).links x y ↔
      ∃ a b, spec.LinksTo a b ∧ x = a + 1 ∧ y = b + 1 := by
    simp only [Sketch.addRows, Sketch.bare, false_or, Nat.zero_add, LinksTo]
    constructor
    · rintro ⟨a, row, hrow, hx, b, hb, hy⟩
      exact ⟨a, b, ⟨row, hrow, hb⟩, hx, hy⟩
    · rintro ⟨a, b, ⟨row, hrow, hb⟩, hx, hy⟩
      exact ⟨a, row, hrow, hx, b, hb, hy⟩
  have hlength : spec.holders.length = spec.clusters := length_drawHolders ..
  change (Sketch.addChains _ _ _).links x y ↔ _
  rw [Sketch.links_addChains, hrows]
  refine or_congr_right ?_
  constructor
  · rintro ⟨j, holder, hj, ⟨i, hi, hx, hy⟩ | ⟨a, rfl, hx, hy⟩⟩
    · have := (List.getElem?_eq_some_iff.mp hj).1
      exact .inl ⟨j, by omega, i, hi, hx, hy⟩
    · exact .inr ⟨j, a, hj, hx, hy⟩
  · rintro (⟨j, hj, i, hi, hx, hy⟩ | ⟨j, a, hj, hx, hy⟩)
    · exact ⟨j, _, List.getElem?_eq_getElem (by omega), .inl ⟨i, hi, hx, hy⟩⟩
    · exact ⟨j, _, hj, .inr ⟨a, rfl, hx, hy⟩⟩

end GraphSpec

/-- The links lead to an object from a root. -/
def Sketch.Live (k : Sketch) (x : Nat) : Prop :=
  ∃ r, k.roots r ∧ Relation.ReflTransGen k.links r x

theorem Sketch.Live.step {k : Sketch} {x y : Nat} (hx : k.Live x) (hl : k.links x y) : k.Live y := by
  obtain ⟨r, hr, hpath⟩ := hx
  exact ⟨r, hr, hpath.tail hl⟩

namespace GraphSpec

variable {spec : GraphSpec}

theorem roots_sketch {x : Nat} :
    spec.sketch.roots x ↔ ∃ r < min spec.roots spec.objects, x = r + 1 := by
  change (Sketch.addChains _ _ _).roots x ∨ x ∈ List.range' 1 _ ↔ _
  rw [Sketch.roots_addChains, List.mem_range'_1]
  simp only [Sketch.addRows, Sketch.bare, false_or]
  constructor
  · rintro ⟨hpos, hlt⟩
    exact ⟨x - 1, by omega, by omega⟩
  · rintro ⟨r, hr, rfl⟩
    omega

/-- The live objects are the nodes that the links lead to and the chains that such nodes hold. -/
theorem live_iff {x : Nat} : spec.sketch.Live x ↔ (∃ a, spec.Found a ∧ x = a + 1) ∨
    ∃ j i, spec.Fed j ∧ i ≤ spec.clusterSize ∧ x = spec.chain j + i := by
  constructor
  · rintro ⟨r, hr, hpath⟩
    induction hpath with
    | refl =>
      obtain ⟨a, ha, rfl⟩ := roots_sketch.mp hr
      exact .inl ⟨a, ⟨a, ha, .refl⟩, rfl⟩
    | tail _ hlast ih =>
      rcases links_sketch.mp hlast with ⟨a, b, hab, rfl, rfl⟩ | ⟨j, hj, i, hi, rfl, rfl⟩ |
        ⟨j, a, hholder, rfl, rfl⟩
      · rcases ih with ⟨a', ha', he⟩ | ⟨j, i, -, -, he⟩
        · cases Nat.succ.inj he
          exact .inl ⟨b, ha'.step hab, rfl⟩
        · have := hab.lt.1
          unfold chain at he
          omega
      · rcases ih with ⟨a, ha, he⟩ | ⟨j', i', hfed, hi', he⟩
        · have := ha.lt
          unfold chain at he
          omega
        · obtain ⟨rfl, rfl⟩ := chain_inj (by omega) hi' he
          exact .inr ⟨j, i + 1, hfed, hi, rfl⟩
      · rcases ih with ⟨a', ha', he⟩ | ⟨j', i, -, -, he⟩
        · cases Nat.succ.inj he
          exact .inr ⟨j, 0, ⟨a, hholder, ha'⟩, Nat.zero_le _, rfl⟩
        · have := lt_of_mem_drawHolders (List.mem_of_getElem? hholder)
          unfold chain at he
          omega
  · have hnodes : ∀ a, spec.Found a → spec.sketch.Live (a + 1) := by
      rintro a ⟨r, hr, hpath⟩
      induction hpath with
      | refl => exact ⟨r + 1, roots_sketch.mpr ⟨r, hr, rfl⟩, .refl⟩
      | tail _ hlast ih => exact ih.step (links_sketch.mpr (.inl ⟨_, _, hlast, rfl, rfl⟩))
    rintro (⟨a, ha, rfl⟩ | ⟨j, i, hfed, hi, rfl⟩)
    · exact hnodes a ha
    · have hj := hfed.lt
      obtain ⟨a, hholder, ha⟩ := hfed
      induction i with
      | zero => exact (hnodes a ha).step (links_sketch.mpr (.inr (.inr ⟨j, a, hholder, rfl, rfl⟩)))
      | succ i ih =>
        exact (ih (by omega)).step (links_sketch.mpr (.inr (.inl ⟨j, hj, i, hi, rfl, rfl⟩)))

/-- A cluster lives as a whole. -/
theorem live_of_group {group : List Nat} (hgroup : group ∈ spec.sketch.groups) {x y : Nat}
    (hx : x ∈ group) (hy : y ∈ group) (hlive : spec.sketch.Live x) : spec.sketch.Live y := by
  change group ∈ (Sketch.addChains _ _ _).groups at hgroup
  rcases (Sketch.groups_addChains _ _ _).mp hgroup with hnone | ⟨j, -, rfl⟩
  · cases hnone
  · have hstart : Sketch.chainStart ((Sketch.bare spec.objects).addRows 0 spec.rows)
        spec.clusterSize j = spec.chain j := rfl
    rw [hstart, List.mem_range'_1] at hx hy
    rcases live_iff.mp hlive with ⟨a, ha, rfl⟩ | ⟨j', i, hfed, hi, he⟩
    · have := ha.lt
      unfold chain at hx
      omega
    · have hsame : spec.chain j + (x - spec.chain j) = spec.chain j' + i := by omega
      obtain ⟨rfl, -⟩ := chain_inj (by omega) hi hsame
      exact live_iff.mpr (.inr ⟨j, y - spec.chain j, hfed, by omega, by omega⟩)

/-- How many objects the roots lead to: the nodes of the random part, and every object of the clusters
whose roots they hold. -/
noncomputable def survivors (spec : GraphSpec) : Nat :=
  {a | spec.Found a}.ncard + (spec.clusterSize + 1) * {j | spec.Fed j}.ncard

theorem ncard_live : {x | spec.sketch.Live x}.ncard = spec.survivors := by
  have hfound : {a | spec.Found a}.Finite := (Set.finite_Iio spec.objects).subset fun _ h => h.lt
  have hfed : {j | spec.Fed j}.Finite := (Set.finite_Iio spec.clusters).subset fun _ h => h.lt
  have hsplit : {x | spec.sketch.Live x} = Nat.succ '' {a | spec.Found a} ∪
      (fun p : Nat × Nat => spec.chain p.1 + p.2) '' ({j | spec.Fed j} ×ˢ Set.Iic spec.clusterSize) := by
    ext x
    simp only [Set.mem_ofPred_eq, live_iff, Set.mem_union, Set.mem_image, Set.mem_prod, Set.mem_Iic,
      Prod.exists, and_assoc, Nat.succ_eq_add_one]
    simp only [eq_comm]
  have hapart : Disjoint (Nat.succ '' {a | spec.Found a})
      ((fun p : Nat × Nat => spec.chain p.1 + p.2) '' ({j | spec.Fed j} ×ˢ Set.Iic spec.clusterSize)) := by
    rw [Set.disjoint_left]
    rintro _ ⟨a, ha, rfl⟩ ⟨⟨j, i⟩, -, he⟩
    have := Found.lt ha
    simp only [chain, Nat.succ_eq_add_one] at he
    omega
  have hinj : Set.InjOn (fun p : Nat × Nat => spec.chain p.1 + p.2)
      ({j | spec.Fed j} ×ˢ Set.Iic spec.clusterSize) := by
    rintro ⟨j, i⟩ ⟨-, hi⟩ ⟨j', i'⟩ ⟨-, hi'⟩ he
    obtain ⟨rfl, rfl⟩ := chain_inj hi hi' he
    rfl
  rw [hsplit, Set.ncard_union_eq hapart (hfound.image _) ((hfed.prod (Set.finite_Iic _)).image _),
    Set.ncard_image_of_injective _ Nat.succ_injective, hinj.ncard_image, Set.ncard_prod,
    survivors, Nat.mul_comm]
  congr 2
  rw [Set.ncard_eq_toFinset_card', Set.toFinset_Iic, Nat.card_Iic]

end GraphSpec

end TracingHeap

import TracingHeap.Proofs.Workload.Sketch

namespace TracingHeap

namespace GraphSpec

variable (spec : GraphSpec)

def drawTargets (r : Random) : Nat → List Nat × Random
  | 0 => ([], r)
  | n + 1 =>
    let target := r.below spec.objects
    let others := drawTargets target.2 n
    (target.1 :: others.1, others.2)

/-- The targets of all links of one node. What the node observes is drawn after them. -/
def drawNode (r : Random) : List Nat × Random :=
  let targets := spec.drawTargets r spec.fanOut
  let roll := targets.2.below 4
  (targets.1, if roll.1 = 0 then (roll.2.below spec.objects).2 else roll.2)

def drawNodes (r : Random) : Nat → List (List Nat) × Random
  | 0 => ([], r)
  | n + 1 =>
    let targets := spec.drawNode r
    let others := drawNodes targets.2 n
    (targets.1 :: others.1, others.2)

/-- The node that links to the root of a cluster, if one does. -/
def drawHolder (r : Random) : Option Nat × Random :=
  if spec.objects = 0 then (none, r)
  else
    let roll := r.below 2
    if roll.1 = 0 then
      let holder := roll.2.below spec.objects
      (some holder.1, holder.2)
    else (none, roll.2)

def drawHolders (r : Random) : Nat → List (Option Nat) × Random
  | 0 => ([], r)
  | n + 1 =>
    let holder := spec.drawHolder r
    let others := drawHolders holder.2 n
    (holder.1 :: others.1, others.2)

def rows : List (List Nat) := (spec.drawNodes ⟨spec.seed⟩ spec.objects).1

def holders : List (Option Nat) :=
  (spec.drawHolders (spec.drawNodes ⟨spec.seed⟩ spec.objects).2 spec.clusters).1

theorem drawTargets_succ (r : Random) (n : Nat) : spec.drawTargets r (n + 1) =
    ((r.below spec.objects).1 :: (spec.drawTargets (r.below spec.objects).2 n).1,
      (spec.drawTargets (r.below spec.objects).2 n).2) := by
  rw [drawTargets]

theorem drawNodes_succ (r : Random) (n : Nat) : spec.drawNodes r (n + 1) =
    ((spec.drawNode r).1 :: (spec.drawNodes (spec.drawNode r).2 n).1,
      (spec.drawNodes (spec.drawNode r).2 n).2) := by
  rw [drawNodes]

theorem drawHolders_succ (r : Random) (n : Nat) : spec.drawHolders r (n + 1) =
    ((spec.drawHolder r).1 :: (spec.drawHolders (spec.drawHolder r).2 n).1,
      (spec.drawHolders (spec.drawHolder r).2 n).2) := by
  rw [drawHolders]

section

variable {spec} {r r' : Random} {roll : Nat}

theorem drawHolder_none (hz : spec.objects = 0) : spec.drawHolder r = (none, r) := by
  rw [drawHolder, if_pos hz]

theorem drawHolder_hit (hz : spec.objects ≠ 0) (hdrawn : r.below 2 = (roll, r'))
    (hroll : roll = 0) :
    spec.drawHolder r = (some (r'.below spec.objects).1, (r'.below spec.objects).2) := by
  rw [drawHolder, if_neg hz, hdrawn]
  exact if_pos hroll

theorem drawHolder_miss (hz : spec.objects ≠ 0) (hdrawn : r.below 2 = (roll, r'))
    (hroll : roll ≠ 0) : spec.drawHolder r = (none, r') := by
  rw [drawHolder, if_neg hz, hdrawn]
  exact if_neg hroll

end

theorem length_drawNodes (n : Nat) : ∀ r, (spec.drawNodes r n).1.length = n := by
  induction n with
  | zero => exact fun _ => rfl
  | succ n ih => exact fun r => congrArg (· + 1) (ih _)

theorem length_drawHolders (n : Nat) : ∀ r, (spec.drawHolders r n).1.length = n := by
  induction n with
  | zero => exact fun _ => rfl
  | succ n ih => exact fun r => congrArg (· + 1) (ih _)

end GraphSpec

namespace Sketch

def addRow (k : Sketch) (a : Nat) (targets : List Nat) : Sketch :=
  { k with links := fun x y => k.links x y ∨ x = a ∧ ∃ j ∈ targets, y = j + 1 }

def addRows (k : Sketch) (start : Nat) (rows : List (List Nat)) : Sketch :=
  { k with links := fun x y => k.links x y ∨
      ∃ i targets, rows[i]? = some targets ∧ x = start + i + 1 ∧ ∃ j ∈ targets, y = j + 1 }

def addPath (k : Sketch) (n : Nat) : Sketch :=
  { k with
    count := k.count + n + 1
    links := fun x y => k.links x y ∨ ∃ i < n, x = k.count + 1 + i ∧ y = k.count + 1 + i + 1 }

/-- A path of new nodes that form a cluster, and perhaps a link to the first of them. -/
def addChain (k : Sketch) (n : Nat) (holder : Option Nat) : Sketch :=
  { k with
    count := k.count + n + 1
    links := fun x y => (k.addPath n).links x y ∨
      ∃ i, holder = some i ∧ x = i + 1 ∧ y = k.count + 1
    groups := List.range' (k.count + 1) (n + 1) :: k.groups }

def addChains (k : Sketch) (n : Nat) (holders : List (Option Nat)) : Sketch :=
  holders.foldl (·.addChain n ·) k

def addRoots (k : Sketch) (roots : List Nat) : Sketch :=
  { k with roots := fun x => k.roots x ∨ x ∈ roots }

variable {k : Sketch}

theorem addRow_nil (k : Sketch) (a : Nat) : k.addRow a [] = k := by
  simp [addRow]

theorem addLink_addRow (k : Sketch) (a t : Nat) (targets : List Nat) :
    (k.addLink a (t + 1)).addRow a targets = k.addRow a (t :: targets) := by
  unfold addLink addRow
  congr 1
  funext x y
  simp only [List.mem_cons, exists_eq_or_imp, eq_iff_iff]
  tauto

theorem addRows_nil (k : Sketch) (start : Nat) : k.addRows start [] = k := by
  simp [addRows]

theorem addRow_addRows (k : Sketch) (start : Nat) (targets : List Nat) (rows : List (List Nat)) :
    (k.addRow (start + 1) targets).addRows (start + 1) rows = k.addRows start (targets :: rows) := by
  unfold addRow addRows
  congr 1
  funext x y
  rw [eq_iff_iff, or_assoc]
  refine or_congr_right ⟨?_, ?_⟩
  · rintro (⟨rfl, hy⟩ | ⟨i, row, hrow, rfl, hy⟩)
    · exact ⟨0, targets, rfl, rfl, hy⟩
    · exact ⟨i + 1, row, hrow, by omega, hy⟩
  · rintro ⟨i, row, hrow, rfl, hy⟩
    cases i with
    | zero =>
      cases hrow
      exact .inl ⟨rfl, hy⟩
    | succ i => exact .inr ⟨i, row, hrow, by omega, hy⟩

theorem addPath_succ (k : Sketch) (n : Nat) :
    (k.addPath n).addNode.addLink (k.count + 1 + n) (k.count + 1 + n + 1) = k.addPath (n + 1) := by
  unfold addPath addNode addLink
  congr 1
  funext x y
  rw [eq_iff_iff, or_assoc]
  refine or_congr_right ⟨?_, ?_⟩
  · rintro (⟨i, hi, h⟩ | h)
    · exact ⟨i, by omega, h⟩
    · exact ⟨n, by omega, h⟩
  · rintro ⟨i, hi, h⟩
    rcases Nat.lt_succ_iff_lt_or_eq.mp hi with hlt | rfl
    · exact .inl ⟨i, hlt, h⟩
    · exact .inr h

theorem addLink_addChain (k : Sketch) (n i : Nat) :
    (k.addChain n none).addLink (i + 1) (k.count + 1) = k.addChain n (some i) := by
  unfold addChain addLink
  congr 1
  funext x y
  simp

theorem addRoots_nil (k : Sketch) : k.addRoots [] = k := by
  simp [addRoots]

theorem addRoot_addRoots (k : Sketch) (a : Nat) (roots : List Nat) :
    (k.addRoot a).addRoots roots = k.addRoots (a :: roots) := by
  simp [addRoot, addRoots, or_assoc]

end Sketch

namespace Graph

open Collector (Shows)

variable {settings : Settings} {spec : GraphSpec} {k : Sketch} {c : Collector} {nodes : Array Handle}

theorem demand_ok {α : Type} {o : Outcome α} {a : α} {d : Collector} (ho : o = .ok (.ok a, d)) :
    demand o = .ok (a, d) := by
  rw [ho]
  rfl

theorem ok_bind {ε α β : Type} (a : α) (f : α → Except ε β) : (Except.ok a >>= f) = f a := by
  simp only [bind, Except.bind]

theorem foldlM_cons_ok {σ α ε : Type} {f : σ → α → Except ε σ} {a : α} {l : List α} {x y z : σ}
    (hf : f x a = .ok y) (hrest : l.foldlM f y = .ok z) : (a :: l).foldlM f x = .ok z := by
  rw [List.foldlM_cons, hf]
  exact hrest

def Numbered (nodes : Array Handle) : Prop := ∀ i h, nodes[i]? = some h → h.index = i + 1

theorem Numbered.push (hn : Numbered nodes) {h : Handle} (hh : h.index = nodes.size + 1) :
    Numbered (nodes.push h) := by
  intro i g hg
  rw [Array.getElem?_push] at hg
  split at hg
  · rename_i he
    cases hg
    rw [hh, he]
  · exact hn i g hg

/-- A node that is picked is the one whose number is drawn. -/
theorem Numbered.pick (hn : Numbered nodes) (hsize : nodes.size = spec.objects)
    (hne : spec.objects ≠ 0) (r : Random) : ∃ h, r.pick nodes = (some h, (r.below spec.objects).2) ∧
      h.index = (r.below spec.objects).1 + 1 ∧ h.index ≤ spec.objects := by
  have hlt : (r.below spec.objects).1 < nodes.size := by
    rw [hsize]
    exact Nat.mod_lt _ (Nat.pos_of_ne_zero hne)
  have hget := Array.getElem?_eq_getElem hlt
  have hindex := hn _ _ hget
  refine ⟨nodes[(r.below spec.objects).1], ?_, hindex, by omega⟩
  unfold Random.pick
  rw [hsize]
  exact congrArg (·, _) hget

/-- Making nodes. -/
theorem addNodes_shows {l : List Nat} : ∀ {nodes : Array Handle} {c : Collector}, Numbered nodes →
    c.Shows settings (.bare nodes.size) →
    nodes.size + l.length < 4294967296 → ∃ nodes' d,
      l.foldlM (fun (nodes, c) i => do
        let (h, c) ← demand (c.createObject ⟨0⟩ ("node" ++ toString i))
        return (nodes.push h, c)) (nodes, c) = Except.ok (nodes', d) ∧
      nodes'.size = nodes.size + l.length ∧ Numbered nodes' ∧
      d.Shows settings (.bare nodes'.size) := by
  induction l with
  | nil => exact fun {nodes c} hn hs _ => ⟨nodes, c, rfl, rfl, hn, hs⟩
  | cons i rest ih =>
    intro nodes c hn hs hroom
    rw [List.length_cons] at hroom
    obtain ⟨h, b, hcreate, hindex, hb⟩ := hs.createObject
      (show nodes.size + 1 < 4294967296 by omega) ("node" ++ toString i)
    have hb' : b.Shows settings (.bare (nodes.push h).size) := by
      rw [Array.size_push]
      exact hb
    obtain ⟨nodes', d, hrest, hsize, hn', hd⟩ := ih (hn.push hindex) hb' (by simp; omega)
    refine ⟨nodes', d, ?_, by rw [hsize]; simp; omega, hn', hd⟩
    refine foldlM_cons_ok ?_ hrest
    dsimp only
    rw [demand_ok hcreate]
    rfl

/-- Linking a node to others. -/
theorem addLinks_shows (hn : Numbered nodes) (hsize : nodes.size = spec.objects)
    (hne : spec.objects ≠ 0) {h : Handle} {l : List Nat} : ∀ {r : Random} {k : Sketch}
    {c : Collector}, c.Shows settings k → spec.objects ≤ k.count → h.index ≤ k.count →
      k.Apart h.index → ∃ d,
      l.foldlM (fun state _ => addLink nodes h state) (r, c) =
        .ok ((spec.drawTargets r l.length).2, d) ∧
      d.Shows settings (k.addRow h.index (spec.drawTargets r l.length).1) := by
  induction l with
  | nil =>
    intro r k c hs _ _ _
    refine ⟨c, rfl, ?_⟩
    change c.Shows settings (k.addRow h.index [])
    rw [Sketch.addRow_nil]
    exact hs
  | cons i rest ih =>
    intro r k c hs hcount hh ha
    obtain ⟨g, hpick, hg, hle⟩ := hn.pick hsize hne r
    obtain ⟨b, hpush, hb⟩ := hs.pushReference hh ha (Nat.le_trans hle hcount)
    obtain ⟨d, hrest, hd⟩ := ih (r := (r.below spec.objects).2) hb hcount hh ha
    rw [List.length_cons, GraphSpec.drawTargets_succ]
    refine ⟨d, ?_, ?_⟩
    · have hfirst : addLink nodes h (r, c) = .ok ((r.below spec.objects).2, b) := by
        unfold addLink
        simp only [hpick]
        rw [demand_ok hpush]
        rfl
      exact foldlM_cons_ok hfirst hrest
    · rw [hg, Sketch.addLink_addRow] at hd
      exact hd

/-- Linking a node to others, and perhaps letting it observe one. -/
theorem linkNode_shows (hn : Numbered nodes) (hsize : nodes.size = spec.objects)
    (hne : spec.objects ≠ 0) {h : Handle} (r : Random) (hs : c.Shows settings k)
    (hcount : spec.objects ≤ k.count) (hh : h.index ≤ k.count) (ha : k.Apart h.index) : ∃ d,
      linkNode spec nodes (r, c) h = .ok ((spec.drawNode r).2, d) ∧
      d.Shows settings (k.addRow h.index (spec.drawNode r).1) := by
  obtain ⟨b, hlinks, hb⟩ := addLinks_shows (l := List.range spec.fanOut) hn hsize hne (r := r) hs
    hcount hh ha
  rw [List.length_range] at hlinks hb
  unfold linkNode GraphSpec.drawNode
  generalize spec.drawTargets r spec.fanOut = drawn at hlinks hb
  obtain ⟨targets, r₁⟩ := drawn
  rw [hlinks]
  rcases hroll : r₁.below 4 with ⟨roll, r₂⟩
  simp only [ok_bind, hroll]
  split
  · obtain ⟨g, hpick, hg, hle⟩ := hn.pick hsize hne r₂
    obtain ⟨d, hset, hd⟩ := hb.setReference hh ha (Nat.le_trans hle hcount)
    refine ⟨d, ?_, hd⟩
    simp only [hpick]
    rw [demand_ok hset]
    rfl
  · exact ⟨b, rfl, hb⟩

/-- Linking some consecutive nodes to others. -/
theorem linkNodes_shows (hn : Numbered nodes) (hsize : nodes.size = spec.objects) {l : List Handle} :
    ∀ (start : Nat) (r : Random) {k : Sketch} {c : Collector}, c.Shows settings k →
      spec.objects ≤ k.count → k.groups = [] → (∀ i h, l[i]? = some h → h.index = start + i + 1) →
      start + l.length ≤ spec.objects → ∃ d,
      l.foldlM (linkNode spec nodes) (r, c) = .ok ((spec.drawNodes r l.length).2, d) ∧
      d.Shows settings (k.addRows start (spec.drawNodes r l.length).1) := by
  induction l with
  | nil =>
    intro start r k c hs _ _ _ _
    refine ⟨c, rfl, ?_⟩
    change c.Shows settings (k.addRows start [])
    rw [Sketch.addRows_nil]
    exact hs
  | cons h rest ih =>
    intro start r k c hs hcount hgroups hl hlen
    rw [List.length_cons] at hlen
    have hh : h.index = start + 1 := hl 0 h rfl
    have ha : k.Apart h.index := by
      intro group hgroup
      rw [hgroups] at hgroup
      cases hgroup
    obtain ⟨b, hfirst, hb⟩ := linkNode_shows hn hsize (by omega) r hs hcount (by omega) ha
    obtain ⟨d, hrest, hd⟩ := ih (start + 1) (spec.drawNode r).2 hb hcount hgroups
      (fun i g hg => by rw [hl (i + 1) g hg]; omega) (by omega)
    rw [List.length_cons, GraphSpec.drawNodes_succ]
    refine ⟨d, foldlM_cons_ok hfirst hrest, ?_⟩
    rw [hh, Sketch.addRow_addRows] at hd
    exact hd

/-- Making a path of nodes. What has been made of it is told by the root and the members, in order. -/
theorem addMembers_shows (name : String) (root : Handle) {l : List Nat} : ∀ {n : Nat} (chain : Chain),
    chain.collector.Shows settings (k.addPath n) → chain.last.index = k.count + 1 + n →
      (root :: chain.members.toList).map (·.index) = List.range' (k.count + 1) (n + 1) →
      k.count + 1 + n + l.length < 4294967296 → (∀ group ∈ k.groups, ∀ a ∈ group, a ≤ k.count) →
      ∃ chain' : Chain, l.foldlM (addMember ⟨0⟩ name) chain = .ok chain' ∧
        chain'.collector.Shows settings (k.addPath (n + l.length)) ∧
        (root :: chain'.members.toList).map (·.index) =
          List.range' (k.count + 1) (n + l.length + 1) := by
  induction l with
  | nil => exact fun chain hs _ hmembers _ _ => ⟨chain, rfl, hs, hmembers⟩
  | cons i rest ih =>
    intro n chain hs hlast hmembers hroom hgroups
    rw [List.length_cons] at hroom
    obtain ⟨h, b, hcreate, hindex, hb⟩ := hs.createObject
      (show k.count + n + 1 + 1 < 4294967296 by omega) (name ++ "." ++ toString i)
    have hindex' : h.index = k.count + 1 + n + 1 := by
      rw [hindex]
      change k.count + n + 1 + 1 = _
      omega
    have hcount : (k.addPath n).addNode.count = k.count + n + 1 + 1 := rfl
    have ha : (k.addPath n).addNode.Apart chain.last.index := by
      intro group hgroup hmem
      have := hgroups group hgroup _ hmem
      omega
    obtain ⟨d, hpush, hd⟩ := hb.pushReference (h := chain.last) (g := h) (by omega) ha (by omega)
    rw [hlast, hindex', Sketch.addPath_succ] at hd
    have hfirst : addMember ⟨0⟩ name chain i = .ok ⟨h, chain.members.push h, d⟩ := by
      unfold addMember
      rw [demand_ok hcreate]
      change (demand (b.pushReference chain.last links (some h)) >>= _) = _
      rw [demand_ok hpush]
      rfl
    have hmembers' : (root :: (chain.members.push h).toList).map (·.index) =
        List.range' (k.count + 1) (n + 1 + 1) := by
      have hlonger : List.range' (k.count + 1) (n + 1 + 1) =
          List.range' (k.count + 1) (n + 1) ++ [k.count + 1 + 1 * (n + 1)] := List.range'_concat
      rw [Array.toList_push, ← List.cons_append, List.map_append, hmembers, hlonger, Nat.one_mul,
        List.map_singleton, hindex']
      rfl
    obtain ⟨chain', hrest, hd', hmade⟩ := ih (n := n + 1) ⟨h, chain.members.push h, d⟩ hd hindex'
      hmembers' (by omega) hgroups
    refine ⟨chain', foldlM_cons_ok hfirst hrest, ?_, ?_⟩
    · rw [List.length_cons, Nat.add_comm rest.length, ← Nat.add_assoc]
      exact hd'
    · rw [List.length_cons, Nat.add_comm rest.length, ← Nat.add_assoc]
      exact hmade

/-- Making a path of nodes that form a cluster. -/
theorem formChain_shows (n : Nat) (name : String) (hs : c.Shows settings k)
    (hroom : k.count + 1 + n < 4294967296) : ∃ root b chain d,
      c.createObject ⟨0⟩ name = .ok (.ok root, b) ∧
      (List.range n).foldlM (addMember ⟨0⟩ name) ⟨root, #[], b⟩ = .ok chain ∧
      chain.collector.formCluster root chain.members.toList = .ok (.ok (), d) ∧
      root.index = k.count + 1 ∧ d.Shows settings (k.addChain n none) := by
  obtain ⟨root, b, hcreate, hroot, hb⟩ := hs.createObject (by omega) name
  have hb' : b.Shows settings (k.addPath 0) := by
    have hpath : k.addNode = k.addPath 0 := by simp [Sketch.addNode, Sketch.addPath]
    exact hpath ▸ hb
  obtain ⟨chain, hchain, hc, hmembers⟩ := addMembers_shows name root (l := List.range n) (n := 0)
    ⟨root, #[], b⟩ hb' hroot (by simp [hroot]) (by simp; omega) hs.bounded.groups
  rw [List.length_range, Nat.zero_add] at hc hmembers
  -- no link leads out of the path
  have hmem : ∀ h : Handle, h ∈ root :: chain.members.toList ↔
      k.count < h.index ∧ h.index ≤ k.count + n + 1 := by
    intro h
    have hindex : h ∈ root :: chain.members.toList ↔
        h.index ∈ (root :: chain.members.toList).map (·.index) :=
      ⟨List.mem_map_of_mem, fun hh => by
        obtain ⟨g, hg, he⟩ := List.mem_map.mp hh
        exact Handle.ext_index he ▸ hg⟩
    rw [hindex, hmembers, List.mem_range'_1]
    omega
  obtain ⟨d, hform, hd⟩ := hc.formCluster root chain.members.toList
    (fun h hh => ((hmem h).mp hh).2)
    (fun h hh group hgroup hin => by
      have := hs.bounded.groups group hgroup _ hin
      have := ((hmem h).mp hh).1
      omega)
    (fun hh => by
      have := hs.bounded.roots _ hh
      omega)
    (fun h hh g hlink => by
      rcases hlink with hold | ⟨j, hj, hx, hy⟩
      · have := hs.bounded.links _ _ hold
        have := ((hmem h).mp hh).1
        omega
      · exact (hmem g).mpr (by omega))
  rw [hmembers] at hd
  have hchained : k.addChain n none =
      (k.addPath n).addGroup (List.range' (k.count + 1) (n + 1)) := by
    simp [Sketch.addChain, Sketch.addPath, Sketch.addGroup]
  exact ⟨root, b, chain, d, hcreate, hchain, hform, hroot, hchained ▸ hd⟩

/-- Making a cluster, and perhaps a link to it. -/
theorem addCluster_shows (hn : Numbered nodes) (hsize : nodes.size = spec.objects) (r : Random)
    (i : Nat) (hs : c.Shows settings k) (hcount : spec.objects ≤ k.count)
    (hroom : k.count + 1 + spec.clusterSize < 4294967296)
    (hgroups : ∀ group ∈ k.groups, ∀ a ∈ group, spec.objects < a) : ∃ d,
      addCluster ⟨0⟩ spec nodes (r, c) i = .ok ((spec.drawHolder r).2, d) ∧
      d.Shows settings (k.addChain spec.clusterSize (spec.drawHolder r).1) := by
  obtain ⟨root, b, chain, e, hcreate, hchain, hform, hroot, he⟩ :=
    formChain_shows spec.clusterSize ("cluster" ++ toString i) hs hroom
  unfold addCluster
  -- the calls are taken one by one: reduced together, they would be evaluated to be compared
  split
  rename_i heq
  cases heq
  extract_lets name
  rw [demand_ok hcreate, ok_bind]
  split
  rename_i heq
  cases heq
  rw [hchain, ok_bind, demand_ok hform, ok_bind]
  split
  rename_i heq
  cases heq
  by_cases hz : spec.objects = 0
  · have hempty : nodes.isEmpty = true := by simp [Array.isEmpty, hsize, hz]
    rw [if_pos hempty, GraphSpec.drawHolder_none hz]
    exact ⟨e, rfl, he⟩
  have hfull : ¬ nodes.isEmpty = true := by simp [Array.isEmpty, hsize, hz]
  rw [if_neg hfull]
  rcases hdrawn : r.below 2 with ⟨roll, r'⟩
  split
  rename_i heq
  cases heq
  by_cases hroll : roll = 0
  · obtain ⟨g, hpick, hg, hle⟩ := hn.pick hsize hz r'
    have ha : (k.addChain spec.clusterSize none).Apart g.index := by
      intro group hgroup hin
      rcases List.mem_cons.mp hgroup with rfl | hold
      · have := (List.mem_range'_1.mp hin).1
        omega
      · have := hgroups group hold _ hin
        omega
    have hcount' : (k.addChain spec.clusterSize none).count = k.count + spec.clusterSize + 1 := rfl
    obtain ⟨d, hpush, hd⟩ := he.pushReference (h := g) (g := root) (by omega) ha (by omega)
    rw [hg, hroot, Sketch.addLink_addChain] at hd
    rw [if_pos hroll, hpick, GraphSpec.drawHolder_hit hz hdrawn hroll]
    split
    rename_i heq
    cases heq
    split
    · rename_i heq
      cases heq
      rw [demand_ok hpush, ok_bind]
      exact ⟨d, rfl, hd⟩
    · rename_i heq
      cases heq
  · rw [if_neg hroll, GraphSpec.drawHolder_miss hz hdrawn hroll]
    exact ⟨e, rfl, he⟩

/-- Making some clusters. -/
theorem addClusters_shows (hn : Numbered nodes) (hsize : nodes.size = spec.objects) {l : List Nat} :
    ∀ {r : Random} {k : Sketch} {c : Collector}, c.Shows settings k → spec.objects ≤ k.count →
      k.count + l.length * (spec.clusterSize + 1) < 4294967296 →
      (∀ group ∈ k.groups, ∀ a ∈ group, spec.objects < a) → ∃ d,
      l.foldlM (addCluster ⟨0⟩ spec nodes) (r, c) = .ok ((spec.drawHolders r l.length).2, d) ∧
      d.Shows settings (k.addChains spec.clusterSize (spec.drawHolders r l.length).1) := by
  induction l with
  | nil => exact fun hs _ _ _ => ⟨_, rfl, hs⟩
  | cons i rest ih =>
    intro r k c hs hcount hroom hgroups
    rw [List.length_cons, Nat.add_mul, Nat.one_mul] at hroom
    obtain ⟨b, hfirst, hb⟩ := addCluster_shows hn hsize r i hs hcount (by omega) hgroups
    have hmore : (k.addChain spec.clusterSize (spec.drawHolder r).1).count =
      k.count + spec.clusterSize + 1 := rfl
    obtain ⟨d, hrest, hd⟩ := ih (r := (spec.drawHolder r).2) hb (by omega) (by omega)
      (fun group hgroup a ha => by
        rcases List.mem_cons.mp hgroup with rfl | hold
        · have := (List.mem_range'_1.mp ha).1
          omega
        · exact hgroups group hold a ha)
    rw [List.length_cons, GraphSpec.drawHolders_succ]
    exact ⟨d, foldlM_cons_ok hfirst hrest, hd⟩

/-- Making some nodes roots. -/
theorem addRoots_shows {l : List Handle} : ∀ {k : Sketch} {c : Collector}, c.Shows settings k →
    (∀ h ∈ l, h.index ≤ k.count ∧ k.Apart h.index) → ∃ d, addRoots l c = .ok d ∧
      d.Shows settings (k.addRoots (l.map (·.index))) := by
  induction l with
  | nil =>
    intro k c hs _
    refine ⟨c, rfl, ?_⟩
    rw [List.map_nil, Sketch.addRoots_nil]
    exact hs
  | cons h rest ih =>
    intro k c hs hl
    obtain ⟨hle, ha⟩ := hl h List.mem_cons_self
    obtain ⟨hok, hb⟩ := hs.addRoot hle ha
    obtain ⟨d, hrest, hd⟩ := ih hb fun g hg => hl g (List.mem_cons_of_mem _ hg)
    refine ⟨d, foldlM_cons_ok ?_ hrest, ?_⟩
    · rw [demand_ok (d := (c.addRoot h).2) (a := ()) (congrArg Except.ok (Prod.ext hok rfl))]
      rfl
    · rw [List.map_cons, ← Sketch.addRoot_addRoots]
      exact hd

end Graph

end TracingHeap

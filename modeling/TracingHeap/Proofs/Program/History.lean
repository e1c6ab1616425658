import TracingHeap.Collector.Operation
import TracingHeap.Proofs.Cluster.Formation

namespace TracingHeap

namespace Operation

variable (c : Collector)

/-- The cells put into an object are those of its class, and a reference in them was where it is or
leads to an object that may be referenced. -/
def Revises (h : Handle) (f : Array Cell → Array Cell) : Prop :=
  ∀ o, c.table.get? h = some o → c.schema.Fits { o with cells := f o.cells } ∧
    ∀ a g, Cell.slotAt? (f o.cells) a = some (some g) →
      o.slot? a = some (some g) ∨ Collector.checkTarget c.table (some g) = .ok ()

/-- What is asked of a program that makes a call. The classes that it registers are honest, the flags that it
sets are not the collector's own, and the cells that it puts into an object keep the layout and lead to what
may be referenced. The boundary of the permanent pool cannot be moved past the last slot that has a number,
so the object in it, if there is one, is in no cluster when the pool is closed: a pool that takes in a part
of a cluster only would break it. -/
def Allowed : Operation → Prop
  | registerClass spec => spec.Honest
  | closePermanentPool => ∀ o, c.table.slot? 4294967295 = some o →
    o.owner = none ∧ o.has .clusterRoot = false
  | setFlags _ m | clearFlags _ m => m.IsForeign
  | putCell h offset cell => Revises c h (·.setIfInBounds offset cell)
  | revise h f => Revises c h f
  | _ => True

end Operation

/-- The collectors that a program can come to have by calls that it may make. -/
inductive Reached : Collector → Prop where
  | start (settings : Settings) (processors : Nat) : Reached (.start settings processors)
  | step {c d : Collector} {op : Operation} {reply : Reply} : Reached c → op.Allowed c →
      c.perform op = .ok (reply, d) → Reached d

namespace Table

variable {t t' : Table} {h : Handle}

theorem Evolves.isUnreachable {R : Handle → Object → Object → Prop} (ev : t.Evolves R t')
    (hR : ∀ g o o', R g o o' → o'.isUnreachable = o.isUnreachable) (h : Handle) :
    t'.isUnreachable h = t.isUnreachable h := by
  cases ho : t.get? h with
  | none => simp [Table.isUnreachable, Table.has, ho, ev.gone h ho]
  | some o =>
    obtain ⟨o', ho', hr⟩ := ev.kept h o ho
    rw [isUnreachable_of_get? ho, isUnreachable_of_get? ho', hR h o o' hr]

/-- Objects in the same slots as before are flagged as before. -/
theorem isUnreachable_of_kept (hkept : ∀ g o, t.get? g = some o → t'.get? g = some o)
    (hu : t.isUnreachable h = true) : t'.isUnreachable h = true := by
  cases ho : t.get? h with
  | none => simp [Table.isUnreachable, Table.has, ho] at hu
  | some o =>
    rw [isUnreachable_of_get? ho] at hu
    rw [isUnreachable_of_get? (hkept h o ho), hu]

end Table

theorem Purge.Waits.mono {p : Purge} {t t' : Table} (hw : p.Waits t)
    (hu : ∀ h, t.isUnreachable h = true → t'.isUnreachable h = true) : p.Waits t' :=
  ⟨fun h hh => hu h (hw.flagged h hh), hw.parked⟩

namespace Collector

variable {c : Collector} {h : Handle} {o : Object}

theorem object_ok (ho : c.object h = .ok o) : c.table.get? h = some o := by
  unfold object at ho
  split at ho
  · cases ho
    assumption
  · cases ho

theorem awake_of_checkTarget {t : Table} {g : Handle}
    (hg : checkTarget t (some g) = .ok ()) : t.Awake g := by
  unfold checkTarget at hg
  simp only at hg
  split at hg
  · rename_i o ho
    split at hg
    · cases hg
    · rename_i hc
      refine ⟨o, ho, ?_⟩
      cases hu : o.isUnreachable with
      | false => rfl
      | true => exact absurd (Flags.intersects_of_has hu (by decide)) hc
  · cases hg

/-- The call, if it comes back, leaves the collector sound, and it never meets a reference to an
object that is not there. -/
def Keeps {α : Type} (call : Except Fault (α × Collector)) : Prop :=
  Ends Fault.Corrupt call fun found => found.2.Sound

theorem sound_start (settings : Settings) (processors : Nat) :
    (start settings processors).Sound := by
  have hnone : ∀ {h o}, Table.empty.get? h = some o → False := by
    intro h o ho
    rw [Table.get?_empty] at ho
    cases ho
  have hempty : ∀ {d : Cluster}, d ∈ Clusters.empty.list → False := by
    intro d hd
    cases hd
  refine ⟨⟨⟨.empty, .empty, fun h o ho => (hnone ho).elim, ⟨.nil, fun d hd => (hempty hd).elim,
    fun h o ho => (hnone ho).elim, fun d hd => (hempty hd).elim, fun h o r ho => (hnone ho).elim,
    fun d hd => (hempty hd).elim, fun d hd => (hempty hd).elim⟩, fun d hd => (hempty hd).elim,
    fun h o ho => (hnone ho).elim⟩, fun d hd => (hempty hd).elim, fun d hd => (hempty hd).elim,
    ?_⟩, ⟨fun h hh => ?_, fun _ => rfl⟩⟩
  · intro h k g he
    obtain ⟨o, a, ho, -⟩ := he
    exact (hnone ho).elim
  · exact absurd hh (Array.not_mem_empty h)

/-- A change of the flags of one object that leaves the marks alone. -/
theorem Sound.reflag (hc : c.Sound) {f : Object → Object} (hf : ∀ o : Object, o.Reflagged (f o))
    (hkill : ∀ o, c.table.get? h = some o → (f o).has .rootSet = true →
      (f o).has .pendingKill = false) :
    Sound { c with table := c.table.modify h f } := by
  refine ⟨hc.settled.reflag hf hkill, hc.purge.mono fun g hu => ?_⟩
  rw [Table.isUnreachable, Table.has, Table.get?_modify]
  cases ho : c.table.get? g with
  | none => simp [Table.isUnreachable, Table.has, ho] at hu
  | some o =>
    rw [Table.isUnreachable_of_get? ho] at hu
    split
    · rename_i p hp
      split at hp
      · cases hp
        exact (hf o).unreachable.trans hu
      · cases hp
        exact hu
    · rename_i hp
      split at hp <;> cases hp

theorem setFlags_sound (hc : c.Sound) {m : Flags} (hm : m.IsForeign) : (c.setFlags h m).2.Sound := by
  unfold setFlags
  split
  · exact hc
  · apply hc.reflag fun o => o.reflagged_insert (hm _ (by decide)) (hm _ (by decide))
    intro o ho hr
    simp only [Object.has, Object.insertFlags, Flags.has_insert, hm .rootSet (by decide),
      hm .pendingKill (by decide), Bool.or_false] at hr ⊢
    exact hc.settled.orderly.unkilled h o ho hr

/-- Clearing flags that mark neither the unreachable nor the roots of clusters, nor the killed. -/
theorem clearFlags_sound (hc : c.Sound) {m : Flags} (hu : m.has .unreachable = false)
    (hf : m.has .clusterRoot = false) : (c.clearFlags h m).2.Sound := by
  unfold clearFlags
  split
  · exact hc
  · apply hc.reflag fun o => o.reflagged_remove hu hf
    intro o ho hr
    simp only [Object.has, Object.removeFlags, Flags.has_remove, Bool.and_eq_true] at hr ⊢
    rw [show o.flags.has .pendingKill = false from hc.settled.orderly.unkilled h o ho hr.1]
    rfl

theorem addRoot_sound (hc : c.Sound) : (c.addRoot h).2.Sound := by
  unfold addRoot
  split
  · exact hc
  · rename_i o ho
    split
    · exact hc
    · rename_i hk
      apply hc.reflag fun o => o.reflagged_insert (m := .single .rootSet) (by decide) (by decide)
      intro p hp _
      rw [object_ok ho] at hp
      cases hp
      simpa [Object.has, Object.insertFlags] using hk

theorem kill_sound (hc : c.Sound) : (c.kill h).2.Sound := by
  unfold kill
  split
  · exact hc
  · rename_i o ho
    split
    · exact hc
    · rename_i hk
      apply hc.reflag fun o => o.reflagged_insert (m := .single .pendingKill) (by decide) (by decide)
      intro p hp hr
      rw [object_ok ho] at hp
      cases hp
      rw [Bool.not_eq_true] at hk
      simp only [Object.has, Object.insertFlags, Flags.has_insert, Flags.has_single] at hk hr
      rw [hk] at hr
      cases hr

theorem closePermanentPool_sound (hc : c.Sound)
    (hlast : ∀ o, c.table.slot? 4294967295 = some o →
      o.owner = none ∧ o.has .clusterRoot = false) : c.closePermanentPool.Sound :=
  ⟨hc.settled.close hlast, hc.purge.mono fun _ hu => hu⟩

theorem registerClass_keeps (hc : c.Sound) {spec : ClassSpec} (hspec : spec.Honest) :
    Keeps (c.registerClass spec) := by
  unfold registerClass settle
  split
  · rename_i made hmade
    obtain ⟨e, hs, he, hbuilt⟩ := Schema.register_ok hmade
    refine ⟨?_, hc.purge⟩
    rw [hs]
    exact hc.settled.push hbuilt (he ▸ hspec)
  · exact hc
  · rename_i f hf
    exact (Schema.register_fault hf).not_corrupt

theorem createObject_keeps (hc : c.Sound) (id : ClassId) (name : String) :
    Keeps (c.createObject id name) := by
  unfold createObject
  split
  · exact hc
  · rename_i f hf
    exact Schema.instantiate_fault hf
  · rename_i cells hcells
    have htidy := hc.settled.orderly.tidy
    cases hmade : c.table.allocate id name cells with
    | mk made t' =>
      cases made with
      | none =>
        obtain ⟨htidy', hbound, hget⟩ := Table.allocate_none htidy hmade
        have hsettled := hc.settled.same htidy' hbound hget
        refine ⟨hsettled, hc.purge.mono fun g hu => ?_⟩
        exact Table.isUnreachable_of_kept (fun g o ho => (hget g).trans ho) hu
      | some h =>
        have hadds := Table.allocate_some htidy hmade
        obtain ⟨hfit, hblank⟩ := hc.settled.orderly.regular.instantiate hcells h name
        have hsettled := hc.settled.extend hadds hfit rfl (fun f => Flags.has_empty f)
          (fun a g => Cell.slotAt?_of_blank hblank a g)
        exact ⟨hsettled, hc.purge.mono fun _ hu =>
          Table.isUnreachable_of_kept (fun _ _ ho => hadds.kept ho) hu⟩

/-- Recording what was written to an object settles the heap again. -/
theorem record_keeps (hc : c.Sound) (ho : c.table.get? h = some o) {u : Object → Object}
    (hu : ∀ o : Object, o.Recelled (u o)) (hfit : c.schema.Fits (u o))
    (hslots : ∀ a g, (u o).slot? a = some (some g) →
      o.slot? a = some (some g) ∨ c.table.Awake g) :
    Keeps ({ c with table := c.table.modify h u }.record h) := by
  have hs := hc.settled
  have hord := hs.orderly
  have hself : (c.table.modify h u).get? h = some (u o) := by
    rw [Table.get?_modify_self, ho]
    rfl
  have hrecord := Clusters.record_cases hord.regular (Schema.fits_recelled hord.fits ho hfit)
    (hord.enrolled.recelled hu h) hself
  unfold record settle
  rcases hrecord with ⟨cs', hcs', hb⟩ | ⟨f, hf, hover⟩
  · simp only [hcs']
    have hsettled : Settled c.schema (c.table.modify h u) cs' := by
      apply hs.write ho hu hfit hslots
      apply hb.mono
      intro d d' hR
      rcases hR with ⟨hout, hd⟩ | hin
      · exact .inl ⟨hd, fun hm => absurd hm hout⟩
      · exact .inr hin
    refine ⟨hsettled, hc.purge.mono fun g hg => ?_⟩
    exact ((c.table.evolves_recelled hu h).isUnreachable (fun _ _ _ hr => hr.1.has _) g).trans hg
  · simp only [hf]
    exact hover.not_corrupt

/-- An object that only loses references leaves nothing to record. -/
theorem Sound.drop (hc : c.Sound) (ho : c.table.get? h = some o) {u : Object → Object}
    (hu : ∀ o : Object, o.Recelled (u o)) (hfit : c.schema.Fits (u o))
    (hslots : ∀ a g, (u o).slot? a = some (some g) → o.slot? a = some (some g)) :
    Sound { c with table := c.table.modify h u } := by
  have hs := hc.settled
  have hedge : ∀ g, Edge c.schema (c.table.modify h u) h .strong g →
      Edge c.schema c.table h .strong g := by
    intro g he
    have hnone : ∀ a g, (u o).slot? a = some (some g) → o.slot? a = some (some g) ∨ False :=
      fun a g hslot => .inl (hslots a g hslot)
    exact (he.of_recelled hs ho hu hfit hnone).resolve_right fun hn => hn.2
  refine ⟨hs.write ho hu hfit (fun a g hslot => .inl (hslots a g hslot))
    ⟨id, by simp, fun d _ => .inl ⟨rfl, fun _ => hedge⟩, fun _ _ => rfl⟩,
    hc.purge.mono fun g hg => ?_⟩
  exact ((c.table.evolves_recelled hu h).isUnreachable (fun _ _ _ hr => hr.1.has _) g).trans hg

theorem writeReference_keeps (hc : c.Sound) (h : Handle) (offset : Nat) (target : Slot)
    (expected : String) : Keeps (c.writeReference h offset target expected) := by
  unfold writeReference
  split
  · exact hc
  · exact hc
  · rename_i o htarget hobject
    have ho := object_ok hobject
    split
    · have hu : ∀ o : Object, o.Recelled (o.modifyCell offset (·.hold target)) :=
        fun _ => ⟨⟨rfl, rfl, rfl⟩, rfl, rfl⟩
      have hfit := (hc.settled.orderly.fits h o ho).hold offset target
      have hslots : ∀ a g, (o.modifyCell offset (·.hold target)).slot? a = some (some g) →
          o.slot? a = some (some g) ∨ target = some g := fun a g hslot => Cell.slotAt?_hold hslot
      split
      · apply record_keeps hc ho hu hfit
        intro a g hslot
        rcases hslots a g hslot with hold | htg
        · exact .inl hold
        · exact .inr (awake_of_checkTarget (htg ▸ htarget))
      · rename_i hnone
        have hgone : ∀ a g, (o.modifyCell offset (·.hold target)).slot? a = some (some g) →
            o.slot? a = some (some g) := by
          intro a g hslot
          rcases hslots a g hslot with hold | htg
          · exact hold
          · rw [htg] at hnone
            exact absurd rfl hnone
        exact hc.drop ho hu hfit hgone
    · exact hc

theorem revise_keeps (hc : c.Sound) {f : Array Cell → Array Cell}
    (hf : Operation.Revises c h f) : Keeps (c.revise h f) := by
  unfold revise
  split
  · exact hc
  · rename_i o hobject
    have ho := object_ok hobject
    obtain ⟨hfit, hslots⟩ := hf o ho
    apply record_keeps hc ho (u := fun o => { o with cells := f o.cells })
      (fun _ => ⟨⟨rfl, rfl, rfl⟩, rfl, rfl⟩) hfit
    intro a g hslot
    exact (hslots a g hslot).imp_right awake_of_checkTarget

theorem putCell_ok {offset : Nat} {cell : Cell} {answer : Except HeapError Bool} {d : Collector}
    (hok : c.putCell h offset cell = .ok (answer, d)) :
    ∃ done isThere, c.revise h (·.setIfInBounds offset cell) = .ok (done, d) ∧
      answer = done.map fun _ => isThere := by
  unfold putCell at hok
  obtain ⟨⟨done, d'⟩, hrevised, hfound⟩ := except_map_ok hok
  cases hfound
  exact ⟨done, _, hrevised, rfl⟩

theorem putCell_keeps (hc : c.Sound) {offset : Nat} {cell : Cell}
    (hf : Operation.Revises c h (·.setIfInBounds offset cell)) : Keeps (c.putCell h offset cell) := by
  have hrevised := revise_keeps hc hf
  unfold putCell
  cases hx : c.revise h (·.setIfInBounds offset cell) with
  | error f => exact hrevised.not_bad hx
  | ok found => exact hrevised.ok hx

theorem formCluster_keeps (hc : c.Sound) (root : Handle) (members : List Handle) :
    Keeps (c.formCluster root members) := by
  have hs := hc.settled
  have hform := Cluster.form_cases hs.orderly.regular hs.orderly.fits root members
  unfold formCluster
  rcases hform with ⟨made, hmade, hfounded⟩ | ⟨e, he⟩ | ⟨f, hf, hover⟩
  · simp only [hmade, Clusters.insert_founded hs.orderly.enrolled hfounded]
    refine ⟨hs.adopt hfounded, hc.purge.mono fun g hg => ?_⟩
    refine (hfounded.evolves.isUnreachable (fun _ o o' heq => ?_) g).trans hg
    rw [heq]
    exact Cluster.has_adopted (by decide)
  · simp only [he]
    exact hc
  · simp only [hf]
    exact hover.not_corrupt

theorem collect_keeps (hc : c.Sound) (keep : Flags) (full : Bool) : Keeps (c.collect keep full) := by
  apply (collect_spec hc full (fun _ _ => .all) (fun _ _ _ _ _ _ _ _ => trivial)).mono
  intro found hfound
  obtain ⟨b, m, -, -, -, hm⟩ := hfound
  exact hm.sound

theorem tryCollect_keeps (hc : c.Sound) (keep : Flags) (full : Bool) :
    Keeps (c.tryCollect keep full) := by
  unfold tryCollect
  split
  · apply (collect_keeps hc keep full).bind
    intro found _ hfound
    exact hfound
  · simp only
    split
    · have hc' : ({ c with misses := c.misses + 1, lock := .free } : Collector).Sound :=
        ⟨hc.settled, hc.purge⟩
      apply (collect_keeps hc' keep full).bind
      intro found _ hfound
      exact hfound
    · exact ⟨hc.settled, hc.purge⟩

theorem shutdown_keeps (hc : c.Sound) : Ends Fault.Corrupt c.shutdown Sound := by
  unfold shutdown
  apply (finishPurge_spec hc).bind
  intro found _ hfound
  exact ⟨hfound.sound.settled, hfound.sound.purge⟩

theorem hold_sound (hc : c.Sound) : c.hold.Sound := by
  unfold hold
  split
  · exact ⟨hc.settled, hc.purge⟩
  · exact hc

theorem reply_keeps {α : Type} {f : α → Reply} {call : Outcome α} (hk : Keeps call) :
    Keeps (reply f call) := by
  cases call with
  | error f => exact hk
  | ok found => exact hk

/-- Every call that a program may make keeps the collector sound. -/
theorem perform_keeps (hc : c.Sound) {op : Operation} (ha : op.Allowed c) :
    Keeps (c.perform op) := by
  cases op with
  | registerClass spec => exact reply_keeps (registerClass_keeps hc ha)
  | createObject id name => exact reply_keeps (createObject_keeps hc id name)
  | closePermanentPool => exact closePermanentPool_sound hc ha
  | setFlags h m => exact setFlags_sound hc ha
  | clearFlags h m => exact clearFlags_sound hc (ha _ (by decide)) (ha _ (by decide))
  | addRoot h => exact addRoot_sound hc
  | removeRoot h => exact clearFlags_sound hc (by decide) (by decide)
  | kill h => exact kill_sound hc
  | setReference h offset target => exact reply_keeps (writeReference_keeps hc h offset target _)
  | pushReference h offset target => exact reply_keeps (writeReference_keeps hc h offset target _)
  | putCell h offset cell => exact reply_keeps (putCell_keeps hc ha)
  | revise h f => exact reply_keeps (revise_keeps hc ha)
  | formCluster root members => exact reply_keeps (formCluster_keeps hc root members)
  | hold => exact hold_sound hc
  | letGo => exact ⟨hc.settled, hc.purge⟩
  | collect keep full =>
    unfold perform
    simp only
    split
    · exact hc
    · apply (collect_keeps hc keep full).bind
      intro found _ hfound
      exact hfound
  | tryCollect keep full =>
    apply (tryCollect_keeps hc keep full).bind
    intro found _ hfound
    exact hfound
  | purge deadline =>
    apply (runPurge_spec hc deadline).bind
    intro found _ hfound
    exact hfound.sound
  | shutdown =>
    unfold perform
    simp only
    split
    · exact hc
    · apply (shutdown_keeps hc).bind
      intro d _ hd
      exact hd
  | setGate isOpen => exact ⟨hc.settled, hc.purge⟩
  | drain => exact ⟨hc.settled, hc.purge⟩

end Collector

/-- The heap is settled after every history of calls. -/
theorem Reached.sound {c : Collector} (hr : Reached c) : c.Sound := by
  induction hr with
  | start settings processors => exact Collector.sound_start settings processors
  | step _ ha hd ih => exact (Collector.perform_keeps ih ha).ok hd

namespace Operation

/-- Whether a call asks nothing of the program, whatever the heap. -/
def asksNothing : Operation → Bool
  | registerClass _ | closePermanentPool | putCell .. | revise .. => false
  | setFlags _ m | clearFlags _ m => Flags.collectorOwned.all fun f => !m.has f
  | _ => true

theorem allowed_of_asksNothing {op : Operation} (ha : op.asksNothing = true) (c : Collector) :
    op.Allowed c := by
  cases op with
  | registerClass | closePermanentPool | putCell | revise => cases ha
  | setFlags h m | clearFlags h m =>
    intro f hf
    have hall := List.all_eq_true.mp ha f hf
    simpa using hall
  | _ => trivial

end Operation

theorem Collector.performAll_cons {c d : Collector} {op : Operation} {ops : List Operation}
    (hok : c.performAll (op :: ops) = .ok d) :
    ∃ reply b, c.perform op = .ok (reply, b) ∧ b.performAll ops = .ok d := by
  rw [performAll, List.foldlM_cons] at hok
  obtain ⟨_, hb, hd⟩ := except_bind_ok hok
  obtain ⟨⟨reply, b⟩, hcall, hfound⟩ := except_map_ok hb
  cases hfound
  exact ⟨reply, b, hcall, hd⟩

theorem Reached.performAll {c d : Collector} {ops : List Operation} (hr : Reached c)
    (hops : ∀ op ∈ ops, ∀ b, op.Allowed b) (hd : c.performAll ops = .ok d) : Reached d := by
  induction ops generalizing c with
  | nil =>
    cases hd
    exact hr
  | cons op rest ih =>
    obtain ⟨reply, b, hb, hd⟩ := Collector.performAll_cons hd
    have hstep : Reached b := hr.step (hops op (List.mem_cons_self ..) c) hb
    exact ih hstep (fun o ho => hops o (List.mem_cons_of_mem _ ho)) hd

/-- What a run from an empty heap with one class comes to, tested. -/
def Collector.runs (settings : Settings) (spec : ClassSpec) (ops : List Operation)
    (test : Collector → Bool) : Bool :=
  match (start settings 1).performAll (.registerClass spec :: ops) with
  | .ok c => test c
  | .error _ => false

theorem Collector.performAll_of_runs {settings : Settings} {spec : ClassSpec} {ops : List Operation}
    {test : Collector → Bool} (hrun : runs settings spec ops test = true) :
    ∃ c, (start settings 1).performAll (.registerClass spec :: ops) = .ok c ∧ test c = true := by
  unfold runs at hrun
  split at hrun
  · rename_i c hc
    exact ⟨c, hc, hrun⟩
  · cases hrun

theorem Reached.of_runs {settings : Settings} {spec : ClassSpec} {ops : List Operation}
    {test : Collector → Bool} (hspec : spec.Honest) (hops : ops.all (·.asksNothing) = true)
    (hrun : Collector.runs settings spec ops test = true) : ∃ c, Reached c ∧ test c = true := by
  obtain ⟨c, hc, htest⟩ := Collector.performAll_of_runs hrun
  refine ⟨c, (Reached.start settings 1).performAll (fun op hop b => ?_) hc, htest⟩
  rcases List.mem_cons.mp hop with heq | hop
  · rw [heq]
    exact hspec
  · exact Operation.allowed_of_asksNothing (List.all_eq_true.mp hops op hop) b

theorem Walk.complete_ok {w : Walk} {visits : List Visit} (h : w.complete = .ok visits) :
    visits = w.visits := by
  unfold complete at h
  split at h
  · cases h
  · cases h
    rfl

namespace Table

instance (t : Table) (h : Handle) : Decidable (t.Awake h) :=
  decidable_of_iff ((t.get? h).any (!·.isUnreachable) = true) (by
    cases ho : t.get? h <;> simp [Awake, ho])

end Table

namespace Collector

def leaves (c : Collector) (keep : Flags) (full : Bool) (test : Collector → Bool) : Bool :=
  match c.collect keep full with
  | .ok (_, d) => test d
  | .error _ => false

theorem collect_of_leaves {c : Collector} {keep : Flags} {full : Bool} {test : Collector → Bool}
    (hl : c.leaves keep full test = true) :
    ∃ stats d, c.collect keep full = .ok (stats, d) ∧ test d = true := by
  unfold leaves at hl
  split at hl
  · rename_i stats d hd
    exact ⟨stats, d, hd, hl⟩
  · cases hl

/-- The reference slots of an object are reported, and hold what is found in them. -/
theorem reports_of_references {c : Collector} {h : Handle} {found : List (Visit × Slot)}
    (hfound : c.references h = .ok found) {p : Visit × Slot} (hp : p ∈ found) :
    ∃ o, c.table.get? h = some o ∧ c.schema.Reports o p.1.address p.1.strength ∧
      o.slot? p.1.address = some p.2 := by
  unfold references at hfound
  obtain ⟨o, ho, hfound⟩ := except_bind_ok hfound
  obtain ⟨w, hw, hfound⟩ := except_bind_ok hfound
  obtain ⟨visits, hvisits, hfound⟩ := except_bind_ok hfound
  have hobject := object_ok (except_mapError_ok ho)
  have hcomplete := Walk.complete_ok (except_mapError_ok hvisits)
  cases hfound
  obtain ⟨v, hv, hfilter⟩ := List.mem_filterMap.mp hp
  obtain ⟨slot, hslot, hpair⟩ := Option.map_eq_some_iff.mp hfilter
  cases hpair
  rw [hcomplete] at hv
  exact ⟨o, hobject, Schema.reports_of_visit hw hv, hslot⟩

def refers (c : Collector) (h : Handle) (k : Strength) (g : Handle) : Bool :=
  match c.references h with
  | .ok found => found.any fun p => p.1.strength == k && p.2 == some g
  | .error _ => false

theorem edge_of_refers {c : Collector} {h g : Handle} {k : Strength}
    (hf : c.refers h k g = true) : Edge c.schema c.table h k g := by
  unfold refers at hf
  split at hf
  · rename_i found hfound
    obtain ⟨⟨v, slot⟩, hm, hp⟩ := List.any_eq_true.mp hf
    simp only [Bool.and_eq_true, beq_iff_eq] at hp
    obtain ⟨hk, hslot⟩ := hp
    obtain ⟨o, ho, hrep, hheld⟩ := reports_of_references hfound hm
    rw [hslot] at hheld
    exact ⟨o, v.address, ho, hk ▸ hrep, hheld⟩
  · cases hf

end Collector

namespace Sample

def one : Handle := ⟨1, by decide, by decide⟩

def two : Handle := ⟨2, by decide, by decide⟩

def three : Handle := ⟨3, by decide, by decide⟩

def four : Handle := ⟨4, by decide, by decide⟩

def five : Handle := ⟨5, by decide, by decide⟩

def six : Handle := ⟨6, by decide, by decide⟩

def seven : Handle := ⟨7, by decide, by decide⟩

def eight : Handle := ⟨8, by decide, by decide⟩

/-- A class of objects with a strong reference, a weak one and a bag. -/
def node : ClassSpec where
  name := "Node"
  superclass := none
  fields := .cons "next" (.reference .strong) (.cons "peer" (.reference .weak)
    (.cons "bag" (.container ⟨true, some Cell.bagSlots, .bag #[] #[]⟩) .nil))
  collector := none
  lifecycle := .silent

theorem blank_bag : (Cell.container (.bag #[] #[])).Blank := by
  intro p g
  cases p <;> simp [Cell.slot?]

theorem node_honest : node.Honest := by
  refine ⟨⟨trivial, trivial, ⟨blank_bag, fun f hf => ?_⟩, trivial⟩, fun f hf => ?_⟩
  · cases hf
    exact Cell.steady_bagSlots
  · cases hf

/-- A class that lists the bags of its objects by itself. The items are strong references as long as the
object passes a test, and weak ones otherwise. -/
def fickle (test : Object → Bool) : ClassSpec where
  name := "Node"
  superclass := none
  fields := .cons "next" (.reference .strong) (.cons "peer" (.reference .weak)
    (.cons "bag" (.container ⟨false, none, .bag #[] #[]⟩) .nil))
  collector := some fun o =>
    o.bagSlots.map fun found => (found.1, if test o then .strong else .weak)
  lifecycle := .silent

def nodes (n : Nat) : List Operation := .replicate n (.createObject ⟨0⟩ "node")

end Sample

end TracingHeap
